/-
Roip/ErrorPaths.lean

The exits of the two senders.

`spudp_send` and `spudp_string_send` both connect a control block, allocate a
packet and give it to `udp_send`.  Whatever comes of it, the packet should be
freed and the control block disconnected.  But neither looks at what
`pbuf_alloc` returns, and `spudp_send` leaves its control block connected when
the datagram has been refused (`paths_iff`).
-/
import Roip.FrameBounds

namespace Roip

variable {β : Type}

/-! ### What is asked of a call -/

/-- A call of `pbuf_alloc`. -/
def NetOp.isAlloc : NetOp → Bool
  | .pbufAlloc _ _ => true
  | _ => false

/-- A call of `pbuf_free`. -/
def NetOp.isFree : NetOp → Bool
  | .pbufFree _ => true
  | _ => false

/-- A datagram that `udp_send` has accepted. -/
def NetOp.isSent : NetOp → Bool
  | .sent _ _ _ _ => true
  | _ => false

/-- The control block of a channel. -/
def Spudp.pcb (s : Spudp β) : Chan → Option UdpPcb
  | .audio => s.dt.p
  | .control => s.pctl

/-- A control block as `udp_disconnect` leaves it. -/
structure UdpPcb.Disconnected (q : UdpPcb) : Prop where
  ip : q.remoteIp = 0
  port : q.remotePort = 0
  flag : q.connected = false

/-- A call in the state `s` has performed `o` and returned `n`, and has left
the state `s'`.  With `o` not empty it has used the control block of `chan`. -/
structure Restored (s : Spudp β) (chan : Chan) (alloc : Bool) (len : Nat)
    (o : List NetOp) (n : Nat) (s' : Spudp β) : Prop where
  freed : o.countP NetOp.isFree =
    if alloc then o.countP NetOp.isAlloc else 0
  disconnected : o ≠ [] → ∃ q, s'.pcb chan = some q ∧ q.Disconnected
  st : s'.dt.st = s.dt.st
  sent : s'.tmCtlpacketSent = s.tmCtlpacketSent
  received : s'.tmCtlpacketReceived = s.tmCtlpacketReceived
  value : n = if o.any NetOp.isSent then len else 0

/-- The exits of a call: it does not use a packet that `pbuf_alloc` has not
given, it returns if it is `ready` to, and what it has used is restored. -/
structure PathsOk (s : Spudp β) (chan : Chan) (alloc : Bool) (len : Nat)
    (ready : Prop) (t : Traced NetOp (Nat × Spudp β)) : Prop where
  null : alloc = false → t.out.any NetOp.isAlloc = true → t.res.isSome = true
  returns : ready → t.res.isSome = true
  restored : ∀ n s', t.res = some (n, s') →
    Restored s chan alloc len t.out n s'

/-- A call of `spudp_string_send` that its assertions admit, in the state
`s`. -/
structure StringCall (β : Type) where
  s : Spudp β
  buf : List UInt8
  len : Nat
  env : SendEnv
  len_pos : 0 < len
  len_lt : len < 256
  len_le : len ≤ buf.length

def StringCall.send (c : StringCall β) : Traced NetOp (Nat × Spudp β) :=
  spudpStringSend c.s c.buf c.len c.env

/-- A selected server is of use once `spudp_init` has made the control
block. -/
def StringCall.PathsOk (c : StringCall β) : Prop :=
  Roip.PathsOk c.s .control c.env.alloc c.len
    (c.s.dt.serverAddr.isSome → c.s.pctl.isSome) c.send

/-- A frame is of use if it lies in `enc`. -/
def AudioCall.PathsOk (speex : Speex β) (c : AudioCall β) : Prop :=
  Roip.PathsOk c.s .audio c.env.alloc c.len
    (∃ bits enc count, c.frame speex = some (bits, enc, count) ∧ count ≤ 256)
    (c.send speex)

/-- A call gets as far as `pbuf_alloc`, with `count` bytes for the control
block `q`. -/
def AudioCall.Hands (speex : Speex β) (c : AudioCall β) (q : UdpPcb)
    (count : Nat) : Prop :=
  c.s.audioPcb = some q ∧ ∃ bits enc, c.frame speex = some (bits, enc, count)

/-! ### Calls -/

section Calls

variable {s s' : Spudp β} {chan : Chan} {alloc : Bool} {len n : Nat}
  {ready : Prop} {o : List NetOp}

theorem paths_return_iff :
    PathsOk s chan alloc len ready ⟨o, some (n, s')⟩ ↔
      Restored s chan alloc len o n s' := by
  constructor
  · intro h
    exact h.restored n s' rfl
  · intro h
    refine ⟨fun _ _ => rfl, fun _ => rfl, ?_⟩
    rintro _ _ ⟨⟩
    exact h

theorem paths_undef_iff :
    PathsOk s chan alloc len ready ⟨o, none⟩ ↔
      (o.any NetOp.isAlloc = true → alloc = true) ∧ ¬ ready := by
  constructor
  · intro h
    refine ⟨fun ho => ?_, fun hr => absurd (h.returns hr) Bool.false_ne_true⟩
    rcases alloc with - | -
    · exact absurd (h.null rfl ho) Bool.false_ne_true
    · rfl
  · rintro ⟨halloc, hready⟩
    refine ⟨fun hnull ho => ?_, fun hr => absurd hr hready, fun _ _ => nofun⟩
    rw [halloc ho] at hnull
    cases hnull

/-- A call that returns before it uses the control block. -/
theorem restored_idle (s : Spudp β) (chan : Chan) (alloc : Bool) (len : Nat)
    (bits : β) :
    Restored s chan alloc len [] 0 { s with encBits := bits } where
  freed := by cases alloc <;> rfl
  disconnected h := absurd rfl h
  st := rfl
  sent := rfl
  received := rfl
  value := rfl

theorem disconnected_udpDisconnect (q : UdpPcb) :
    (udpDisconnect q).Disconnected :=
  ⟨rfl, rfl, rfl⟩

/-- The last part of `spudp_send`. -/
theorem sendAudio_paths_iff {q : UdpPcb} {enc : CArray UInt8 256}
    {count : Nat} {e : SendEnv} (bits : β) (hready : ready ↔ count ≤ 256) :
    PathsOk s .audio e.alloc len ready
        (sendAudio { s with encBits := bits } q enc count len e) ↔
      e.alloc = true ∧
        (count ≤ 256 → udpSend q e.link = true ∨ q.Disconnected) := by
  rw [sendAudio]
  by_cases hcopy : e.alloc = true ∧ count ≤ 256
  · obtain ⟨halloc, hcount⟩ := hcopy
    rw [if_pos ⟨halloc, hcount⟩, halloc]
    rcases hsend : udpSend q e.link with - | -
    · -- refused: nothing but the disconnection is missing
      apply paths_return_iff.trans
      constructor
      · intro h
        obtain ⟨_, ⟨⟩, hq⟩ := h.disconnected (List.cons_ne_nil _ _)
        exact ⟨rfl, fun _ => Or.inr hq⟩
      · intro h
        have hq := (h.2 hcount).resolve_left Bool.false_ne_true
        exact ⟨rfl, fun _ => ⟨q, rfl, hq⟩, rfl, rfl, rfl, rfl⟩
    · refine iff_of_true ?_ ⟨rfl, fun _ => Or.inl rfl⟩
      apply paths_return_iff.mpr
      exact ⟨rfl, fun _ => ⟨_, rfl, disconnected_udpDisconnect q⟩, rfl, rfl,
        rfl, rfl⟩
  · rw [if_neg hcopy]
    apply paths_undef_iff.trans
    rw [hready]
    constructor
    · rintro ⟨halloc, hcount⟩
      exact ⟨halloc rfl, fun h => absurd h hcount⟩
    · rintro ⟨halloc, -⟩
      exact ⟨fun _ => halloc, fun h => hcopy ⟨halloc, h⟩⟩

/-- A call whose frame cannot be built comes to no packet. -/
theorem audio_paths_unframed {speex : Speex β} {c : AudioCall β}
    (hf : c.frame speex = none) : c.PathsOk speex := by
  have hready : ¬ ∃ bits enc count,
      c.frame speex = some (bits, enc, count) ∧ count ≤ 256 := by
    rintro ⟨bits, enc, count, h, -⟩
    rw [hf] at h
    cases h
  rw [AudioCall.PathsOk]
  rcases hp : c.s.dt.p with - | p
  · rcases hheader : buildHeader c.env.enc c.id c.gid c.id2 with - | header
    · have hundef : c.send speex = Traced.undef := by
        rw [AudioCall.send, spudpSend, hheader]
        rfl
      rw [hundef]
      apply paths_undef_iff.mpr
      exact ⟨fun h => absurd h Bool.false_ne_true, hready⟩
    · rw [send_off hheader hp]
      apply paths_return_iff.mpr
      exact restored_idle c.s _ _ _ c.s.encBits
  · rw [send_unframed hf hp]
    apply paths_undef_iff.mpr
    exact ⟨fun h => absurd h Bool.false_ne_true, hready⟩

/-- Without a control block for it a frame is not handed on. -/
theorem send_unhanded {speex : Speex β} {c : AudioCall β} {bits : β}
    {enc : CArray UInt8 256} {count : Nat}
    (hf : c.frame speex = some (bits, enc, count))
    (hpcb : c.s.audioPcb = none) :
    ∃ b, c.send speex = pure (0, { c.s with encBits := b }) := by
  rcases hp : c.s.dt.p with - | p
  · rcases hheader : buildHeader c.env.enc c.id c.gid c.id2 with - | header
    · simp only [AudioCall.frame, hheader, Option.bind_eq_bind,
        Option.bind_none] at hf
      cases hf
    · exact ⟨c.s.encBits, send_off hheader hp⟩
  · refine ⟨bits, ?_⟩
    rw [send_framed hf hp, hpcb]

theorem send_handed {speex : Speex β} {c : AudioCall β} {bits : β}
    {enc : CArray UInt8 256} {count : Nat} {q : UdpPcb}
    (hf : c.frame speex = some (bits, enc, count))
    (hpcb : c.s.audioPcb = some q) :
    c.send speex = sendAudio { c.s with encBits := bits } q enc count c.len
      c.env.toSendEnv := by
  rcases hp : c.s.dt.p with - | p
  · rw [Spudp.audioPcb, hp] at hpcb
    cases hpcb
  · rw [send_framed hf hp, hpcb]

theorem audio_paths_iff (speex : Speex β) (c : AudioCall β) :
    c.PathsOk speex ↔ ∀ q count, c.Hands speex q count →
      c.env.alloc = true ∧
        (count ≤ 256 → udpSend q c.env.link = true ∨ q.Disconnected) := by
  rcases hf : c.frame speex with - | ⟨bits, enc, count⟩
  · refine iff_of_true (audio_paths_unframed hf) ?_
    rintro q count ⟨-, bits, enc, h⟩
    rw [hf] at h
    cases h
  have hhands (q : UdpPcb) (k : Nat) :
      c.Hands speex q k ↔ c.s.audioPcb = some q ∧ k = count := by
    rw [AudioCall.Hands, hf]
    constructor
    · rintro ⟨hq, _, _, ⟨⟩⟩
      exact ⟨hq, rfl⟩
    · rintro ⟨hq, rfl⟩
      exact ⟨hq, bits, enc, rfl⟩
  have hready : (∃ b e k, c.frame speex = some (b, e, k) ∧ k ≤ 256) ↔
      count ≤ 256 := by
    rw [hf]
    constructor
    · rintro ⟨_, _, _, ⟨⟩, hk⟩
      exact hk
    · exact fun hk => ⟨bits, enc, count, rfl, hk⟩
  simp only [hhands]
  rw [AudioCall.PathsOk]
  rcases hpcb : c.s.audioPcb with - | q
  · refine iff_of_true ?_ (by rintro q k ⟨⟨⟩, -⟩)
    obtain ⟨b, hsend⟩ := send_unhanded hf hpcb
    rw [hsend]
    apply paths_return_iff.mpr
    exact restored_idle c.s _ _ _ b
  · rw [send_handed hf hpcb, sendAudio_paths_iff bits hready]
    constructor
    · rintro h _ _ ⟨⟨⟩, rfl⟩
      exact h
    · exact fun h => h q count ⟨rfl, rfl⟩

theorem string_paths_iff (c : StringCall β) :
    c.PathsOk ↔ (c.s.dt.serverAddr.isSome = true →
      c.s.pctl.isSome = true → c.env.alloc = true) := by
  rw [StringCall.PathsOk, StringCall.send, spudpStringSend,
    if_pos ⟨c.len_pos, c.len_lt⟩]
  rcases c.s.dt.serverAddr with - | ip
  · refine iff_of_true ?_ fun h => absurd h Bool.false_ne_true
    apply paths_return_iff.mpr
    exact restored_idle c.s _ _ _ c.s.encBits
  rcases hp : c.s.pctl with - | p
  · refine iff_of_true ?_ fun _ h => absurd h Bool.false_ne_true
    apply paths_undef_iff.mpr
    exact ⟨fun h => absurd h Bool.false_ne_true,
      fun h => absurd (h rfl) Bool.false_ne_true⟩
  dsimp only
  rw [Traced.ofOption_some, pure_bind]
  rcases halloc : c.env.alloc with - | -
  · rw [if_neg (fun h => Bool.false_ne_true h.1)]
    refine iff_of_false (fun h => ?_) fun h => Bool.false_ne_true (h rfl rfl)
    exact Bool.false_ne_true ((paths_undef_iff.mp h).1 rfl)
  · rw [if_pos ⟨rfl, c.len_le⟩]
    refine iff_of_true ?_ fun _ _ => rfl
    -- both exits disconnect
    split
    · apply paths_return_iff.mpr
      exact ⟨rfl, fun _ => ⟨_, rfl, disconnected_udpDisconnect _⟩, rfl, rfl,
        rfl, rfl⟩
    · apply paths_return_iff.mpr
      exact ⟨rfl, fun _ => ⟨_, rfl, disconnected_udpDisconnect _⟩, rfl, rfl,
        rfl, rfl⟩

end Calls

/-- **When the exits of the two senders restore the state.**  Every packet has
to be allocated, and a datagram of audio may be refused only if it was sent
without a connection. -/
theorem paths_iff (speex : Speex β) (c : AudioCall β) (d : StringCall β) :
    (c.PathsOk speex ↔ ∀ q count, c.Hands speex q count →
      c.env.alloc = true ∧
        (count ≤ 256 → udpSend q c.env.link = true ∨ q.Disconnected)) ∧
    (d.PathsOk ↔ (d.s.dt.serverAddr.isSome = true →
      d.s.pctl.isSome = true → d.env.alloc = true)) :=
  ⟨audio_paths_iff speex c, string_paths_iff d⟩

/-- A block of silence for the server that has answered, where `pbuf_alloc`
and the layers below `udp_send` do as `e` says. -/
def silenceWith (e : SendEnv) : AudioCall Nat :=
  { silenceFrom [52, 0] with env := ⟨e, CArray.fill 256 0, 0⟩ }

theorem silenceWith_hands (e : SendEnv) :
    (silenceWith e).Hands countingSpeex ⟨10, 5198, true, true⟩ 45 := by
  have h := silenceFrom_encodes countingSpeex
  have hpcb : (silenceFrom [52, 0]).s.audioPcb =
      some ⟨10, 5198, true, true⟩ := by decide
  obtain ⟨enc, hframe, -⟩ := frame_fits countingSpeex_writesBytes
    (c := silenceWith e) ⟨h.id, h.gid, h.id2, h.bits⟩ (by decide)
  exact ⟨hpcb, _, enc, hframe⟩

/-- Without memory both senders use the null pointer, and a refused datagram
of audio leaves its control block connected. -/
theorem not_paths :
    ¬ StringCall.PathsOk ⟨spudpStart, syncPayload, 32, ⟨false, true⟩,
        by decide, by decide, by decide⟩ ∧
      ¬ (silenceWith ⟨false, true⟩).PathsOk countingSpeex ∧
      ¬ (silenceWith ⟨true, false⟩).PathsOk countingSpeex := by
  refine ⟨fun h => ?_, fun h => ?_, fun h => ?_⟩
  · exact absurd ((string_paths_iff _).mp h rfl rfl) Bool.false_ne_true
  · exact absurd ((audio_paths_iff _ _).mp h _ _ (silenceWith_hands _)).1
      Bool.false_ne_true
  · rcases ((audio_paths_iff _ _).mp h _ _ (silenceWith_hands _)).2
      (by decide) with hsent | hq
    · exact absurd hsent (by decide)
    · exact absurd hq.flag (by decide)

end Roip
