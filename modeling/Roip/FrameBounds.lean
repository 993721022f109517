/-
Roip/FrameBounds.lean

The frame that `spudp_send` puts together in `enc[256]`.

The output of the encoder is written behind the header, but its size is
compared with the whole of `enc`, and the header may be 96 bytes long.  An
output of less than 256 bytes that does not fit behind the header leaves the
array; a larger one is not written, and `nbytes`, which nothing has assigned
to, is used as its length.
-/
import Roip.Framing

namespace Roip

variable {β : Type}

/-! ### What is asked of a call -/

/-- What `speex_bits_write` writes in a call. -/
def AudioCall.written (speex : Speex β) (c : AudioCall β) (bits : β) :
    List UInt8 :=
  if c.s.dt.p.isSome ∧ speex.nbytes bits < 256 then speex.write bits 256
  else []

/-- The header and exactly the bytes that `speex_bits_nbytes` has reported
stand in `enc`, and the call ends with the send of these. -/
def FrameWhole (speex : Speex β) (c : AudioCall β) (m : Names) (bits : β) :
    Prop :=
  m.header.length + speex.nbytes bits ≤ 256 ∧
    (c.written speex bits).length = speex.nbytes bits ∧
    ∃ (s : Spudp β) (q : UdpPcb) (enc : CArray UInt8 256),
      enc.cells.take (m.header.length + speex.nbytes bits) =
          m.header ++ c.written speex bits ∧
        c.send speex = sendAudio s q enc
          (m.header.length + speex.nbytes bits) c.len c.env.toSendEnv

/-- Nothing is sent, and 0 is returned. -/
def Silent (t : Traced NetOp (Nat × Spudp β)) : Prop :=
  (∀ ip port d, .sent .audio ip port d ∉ t.out) ∧ ∃ s, t.res = some (0, s)

/-- A call keeps to `enc`: it sends the whole frame, or it writes no encoder
output and sends nothing. -/
def FrameKept (speex : Speex β) (c : AudioCall β) (m : Names) (bits : β) :
    Prop :=
  FrameWhole speex c m bits ∨
    c.written speex bits = [] ∧ Silent (c.send speex)

/-- `pbuf_alloc` succeeds, what is taken for the frame lies in `enc`, and
`udp_send` refuses it. -/
def AudioCall.Refused (c : AudioCall β) (q : UdpPcb) (count : Nat) : Prop :=
  c.env.alloc = true ∧ count ≤ 256 ∧ udpSend q c.env.link = false

/-! ### Calls -/

section Calls

variable {speex : Speex β} {c : AudioCall β} {m : Names} {bits : β}
  {p q : UdpPcb}

theorem silent_pure (s : Spudp β) :
    Silent (pure (0, s) : Traced NetOp (Nat × Spudp β)) :=
  ⟨fun _ _ _ h => absurd h List.not_mem_nil, s, rfl⟩

theorem not_silent_undef :
    ¬ Silent (Traced.undef : Traced NetOp (Nat × Spudp β)) := by
  rintro ⟨-, s, hs⟩
  cases hs

theorem silent_sendAudio_iff (s : Spudp β) (enc : CArray UInt8 256)
    (count : Nat) :
    Silent (sendAudio s q enc count c.len c.env.toSendEnv) ↔
      c.Refused q count := by
  unfold sendAudio AudioCall.Refused
  by_cases hcopy : c.env.alloc = true ∧ count ≤ 256
  · rw [if_pos hcopy]
    rcases hsend : udpSend q c.env.link with - | -
    · refine iff_of_true ⟨fun ip port d h => ?_, _, rfl⟩
        ⟨hcopy.1, hcopy.2, rfl⟩
      simp at h
    · refine iff_of_false (fun h => ?_) (by simp)
      exact h.1 q.remoteIp q.remotePort (enc.cells.take count) (by simp)
  · rw [if_neg hcopy]
    refine iff_of_false ?_ fun h => hcopy ⟨h.1, h.2.1⟩
    rintro ⟨-, t, ht⟩
    cases ht

/-- A send begins with the allocation. -/
theorem sendAudio_out_ne (s : Spudp β) (q : UdpPcb) (enc : CArray UInt8 256)
    (count len : Nat) (e : SendEnv) :
    (sendAudio s q enc count len e).out ≠ [] := by
  rcases sendAudio_cases s q enc count len e with h | ⟨-, h⟩ | ⟨-, h⟩ <;>
    rw [h] <;> exact List.cons_ne_nil _ _

theorem not_frameWhole (h : (c.send speex).out = []) :
    ¬ FrameWhole speex c m bits := by
  rintro ⟨-, -, s, q, enc, -, hsend⟩
  rw [hsend] at h
  exact sendAudio_out_ne _ _ _ _ _ _ h

/-- An output that does not fit behind the header. -/
theorem frame_overflow (hw : speex.WritesBytes) (h : c.Encodes speex m bits)
    (hsmall : speex.nbytes bits < 256)
    (hover : 256 < m.header.length + speex.nbytes bits) :
    c.frame speex = none := by
  obtain ⟨n, enc, back, hn, -, hframe⟩ := h.frame_eq
  have hcopy : enc.memcpy n.toNat (speex.write bits 256) = none := by
    rw [CArray.memcpy, dif_neg]
    rw [hw, hn]
    omega
  have hwrite : writeBits speex bits n enc c.env.nbytes = none := by
    rw [writeBits, if_pos hsmall]
    dsimp only
    rw [hcopy]
    rfl
  rw [hframe, hwrite, Option.map_none]

/-- An output that is not written: `nbytes` keeps its first contents. -/
theorem frame_large (h : c.Encodes speex m bits)
    (hlarge : 256 ≤ speex.nbytes bits) :
    ∃ enc, c.frame speex = some (speex.reset bits, enc,
      (c.env.nbytes + UInt32.ofNat m.header.length).toNat) := by
  obtain ⟨n, enc, back, -, -, hframe⟩ := h.frame_eq
  refine ⟨enc, ?_⟩
  rw [hframe, writeBits, if_neg (Nat.not_lt.mpr hlarge), Option.map_some]

/-- Before `spudp_init` a call does nothing. -/
theorem kept_off (h : c.Encodes speex m bits) (hp : c.s.dt.p = none) :
    FrameKept speex c m bits := by
  obtain ⟨n, enc, back, hheader, -, -⟩ := h.header
  refine Or.inr ⟨if_neg fun hsome => ?_, ?_⟩
  · rw [hp] at hsome
    cases hsome.1
  · rw [send_off hheader hp]
    exact silent_pure _

/-- Where the output fits, the frame is kept if a control block has been
chosen. -/
theorem kept_fits (hw : speex.WritesBytes) (h : c.Encodes speex m bits)
    (hroom : m.header.length + speex.nbytes bits ≤ 256)
    (hp : c.s.dt.p = some p) :
    FrameKept speex c m bits ↔
      c.s.audioPcb = none ∧ speex.nbytes bits = 0 ∨
        ∃ q, c.s.audioPcb = some q := by
  obtain ⟨enc, hframe, htake⟩ := frame_fits hw h hroom
  have hpos := m.header_pos
  have hwritten : c.written speex bits = speex.write bits 256 := by
    rw [AudioCall.written, hp, if_pos ⟨rfl, by omega⟩]
  have hlen : (c.written speex bits).length = speex.nbytes bits := by
    rw [hwritten, hw]
    omega
  have hsend := send_framed hframe hp
  rcases hpcb : c.s.audioPcb with - | q
  · -- no server: the output has been written, and nothing is sent
    rw [hpcb] at hsend
    have hsilent : Silent (c.send speex) := by
      rw [hsend]
      exact silent_pure _
    have hwhole : ¬ FrameWhole speex c m bits :=
      not_frameWhole (by rw [hsend]; rfl)
    rw [FrameKept, or_iff_right hwhole, and_iff_left hsilent,
      ← List.length_eq_zero_iff, hlen]
    simp
  · rw [hpcb] at hsend
    refine iff_of_true (Or.inl ⟨hroom, hlen, _, q, enc, ?_, hsend⟩)
      (Or.inr ⟨q, rfl⟩)
    rw [hwritten]
    exact htake

/-- An output that is not written: nothing may be sent. -/
theorem kept_large (h : c.Encodes speex m bits)
    (hlarge : 256 ≤ speex.nbytes bits) (hp : c.s.dt.p = some p) :
    FrameKept speex c m bits ↔ ∀ q, c.s.audioPcb = some q →
      c.Refused q (c.env.nbytes + UInt32.ofNat m.header.length).toNat := by
  obtain ⟨enc, hframe⟩ := frame_large h hlarge
  have hwhole : ¬ FrameWhole speex c m bits := by
    rintro ⟨hroom, -⟩
    have hpos := m.header_pos
    omega
  have hwritten : c.written speex bits = [] :=
    if_neg fun hsmall => Nat.not_lt.mpr hlarge hsmall.2
  rw [FrameKept, or_iff_right hwhole, and_iff_right hwritten,
    send_framed hframe hp]
  rcases c.s.audioPcb with - | q
  · exact iff_of_true (silent_pure _) fun q hq => by cases hq
  · simp only [Option.some.injEq, forall_eq']
    exact silent_sendAudio_iff _ _ _

/-- An output that leaves the array. -/
theorem not_kept_overflow (hw : speex.WritesBytes)
    (h : c.Encodes speex m bits) (hsmall : speex.nbytes bits < 256)
    (hover : 256 < m.header.length + speex.nbytes bits)
    (hp : c.s.dt.p = some p) : ¬ FrameKept speex c m bits := by
  have hundef : c.send speex = Traced.undef :=
    send_unframed (frame_overflow hw h hsmall hover) hp
  rintro (hwhole | ⟨-, hsilent⟩)
  · exact not_frameWhole (by rw [hundef]; rfl) hwhole
  · rw [hundef] at hsilent
    exact not_silent_undef hsilent

end Calls

/-- **When a call keeps to `enc`.**  If nothing is sent for another reason,
nothing of the encoder output may have been written; otherwise the output has
to fit behind the header, or the send has to fail. -/
theorem frame_kept_iff {speex : Speex β} (hw : speex.WritesBytes)
    {c : AudioCall β} {m : Names} {bits : β} (h : c.Encodes speex m bits) :
    FrameKept speex c m bits ↔ c.s.dt.p = none ∨
      (c.s.audioPcb = none ∧
        (speex.nbytes bits = 0 ∨ 256 ≤ speex.nbytes bits)) ∨
      ∃ q, c.s.audioPcb = some q ∧
        (m.header.length + speex.nbytes bits ≤ 256 ∨
          256 ≤ speex.nbytes bits ∧ c.Refused q
            (c.env.nbytes + UInt32.ofNat m.header.length).toNat) := by
  rcases hp : c.s.dt.p with - | p
  · exact iff_of_true (kept_off h hp) (Or.inl rfl)
  rw [or_iff_right (Option.some_ne_none p)]
  have hpos := m.header_pos
  have hheader : m.header.length < 256 := by
    rw [m.header_length]
    exact m.text_length_lt
  by_cases hroom : m.header.length + speex.nbytes bits ≤ 256
  · have hsmall : ¬ 256 ≤ speex.nbytes bits := by omega
    rw [kept_fits hw h hroom hp]
    simp only [hsmall, hroom, or_false, true_or, and_true]
  · by_cases hlarge : 256 ≤ speex.nbytes bits
    · rw [kept_large h hlarge hp]
      simp only [hlarge, hroom, or_true, false_or, true_and, and_true]
      rcases c.s.audioPcb with - | q <;> simp
    · refine iff_of_false (not_kept_overflow hw h (Nat.lt_of_not_le hlarge)
        (Nat.lt_of_not_le hroom) hp) ?_
      rintro (⟨-, hzero | hlarge'⟩ | ⟨q, -, hroom' | ⟨hlarge', -⟩⟩)
      · omega
      · exact hlarge hlarge'
      · exact hroom hroom'
      · exact hlarge hlarge'

/-- The identities of a call with a talker. -/
def talkerNames : Names :=
  ⟨⟨[50], by decide, by decide⟩, ⟨[51], by decide, by decide⟩,
    ⟨[52], by decide, by decide⟩⟩

/-- One block of silence is encoded. -/
theorem silenceFrom_encodes (speex : Speex Nat) :
    (silenceFrom [52, 0]).Encodes speex talkerNames
      (speex.insertTerminator (speex.encodeInt (List.replicate 160 0) 0)) where
  id := ⟨[], rfl⟩
  gid := ⟨[], rfl⟩
  id2 := ⟨[], rfl⟩
  bits := by
    have hlen : 0 + blockLength ≤ (List.replicate 160 (0 : Int16)).length := by
      rw [List.length_replicate]
      decide
    have hloop : encodeLoop speex (List.replicate 160 0) 160 160 0 0 =
        some (speex.encodeInt (List.replicate 160 0) 0) := by
      rw [encodeLoop, if_pos (by decide), if_pos hlen, List.drop_zero,
        List.take_of_length_le (by rw [List.length_replicate]; decide)]
      rfl
    exact congrArg (Option.map speex.insertTerminator) hloop

/-- A block of silence fits behind its header. -/
theorem frame_kept_iff_silence :
    FrameKept countingSpeex (silenceFrom [52, 0]) talkerNames 305 := by
  refine (frame_kept_iff countingSpeex_writesBytes
    (silenceFrom_encodes countingSpeex)).mpr ?_
  exact Or.inr (Or.inr ⟨_, rfl, Or.inl (by decide)⟩)

/-- `k` blocks of silence, the identities having 31 digits. -/
def longSilence (k : Nat) : AudioCall Nat where
  s := { spudpStart with dt := { spudpStart.dt with st := 0x81 } }
  id := List.replicate 31 50 ++ [0]
  gid := List.replicate 31 51 ++ [0]
  id2 := List.replicate 31 52 ++ [0]
  samples := List.replicate (160 * k) 0
  len := 160 * k
  env := ⟨⟨true, true⟩, CArray.fill 256 0, 0⟩

def longNames : Names :=
  ⟨⟨List.replicate 31 50, by decide, by decide⟩,
    ⟨List.replicate 31 51, by decide, by decide⟩,
    ⟨List.replicate 31 52, by decide, by decide⟩⟩

/-- Of the 189 bytes of five blocks the last 29 are written behind `enc`; of the
264 bytes of seven blocks none is written, and what is sent in their place has
the length that happens to stand in `nbytes`, here 0. -/
theorem not_frame_kept :
    (longSilence 5).Encodes countingSpeex longNames 1505 ∧
      (longSilence 7).Encodes countingSpeex longNames 2105 ∧
      ¬ FrameKept countingSpeex (longSilence 5) longNames 1505 ∧
      ¬ FrameKept countingSpeex (longSilence 7) longNames 2105 := by
  have hfive : (longSilence 5).Encodes countingSpeex longNames 1505 :=
    ⟨⟨[], rfl⟩, ⟨[], rfl⟩, ⟨[], rfl⟩, by decide +kernel⟩
  have hseven : (longSilence 7).Encodes countingSpeex longNames 2105 :=
    ⟨⟨[], rfl⟩, ⟨[], rfl⟩, ⟨[], rfl⟩, by decide +kernel⟩
  refine ⟨hfive, hseven, ?_, ?_⟩
  · exact not_kept_overflow countingSpeex_writesBytes hfive (by decide)
      (by decide) rfl
  · rw [kept_large hseven (by decide) rfl]
    intro h
    exact absurd (h _ rfl).2.2 (by decide)

end Roip
