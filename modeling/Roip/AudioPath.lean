/-
Roip/AudioPath.lean

The way of the audio through the whole device: from the converter to the
server.

`spudp_send` reads the block in pieces while the interrupt handler fills the
other one, so the block must not be completed a second time before it has been
read (`Undisturbed`).  Then the encoder gets whole blocks of consecutive
samples (`AudioInv`): some of the blocks completed, in order and none twice,
although a block may be missed.  What the network accepts on the audio channel
is, for some of these calls and in their order, the header with the identities
of the call and the output of the encoder for its block (`audio_path`).
-/
import Roip.Callback
import Roip.IdentityBounds
import Roip.TextPath

namespace Roip

variable {β : Type}

/-! ### Blocks and frames -/

/-- The blocks completed by the samples `xs`. -/
def completed (xs : List Int16) : List (List Int16) :=
  (List.range (xs.length / blockSize)).map (blockAt blockSize xs)

/-- The datagrams accepted on the audio channel. -/
def audioSent (ns : List NetOp) : List (List UInt8) :=
  ns.filterMap fun
    | .sent .audio _ _ d => some d
    | _ => none

@[simp] theorem audioSent_append (ns ns' : List NetOp) :
    audioSent (ns ++ ns') = audioSent ns ++ audioSent ns' :=
  List.filterMap_append

/-- The bits after the first `n` pieces of a block. -/
def encodePieces (speex : Speex β) (samples : List Int16) (n : Nat)
    (bits : β) : β :=
  ((List.range n).map (blockAt blockLength samples)).foldl
    (fun b x => speex.encodeInt x b) bits

/-- The bits of a block. -/
def encodeBlock (speex : Speex β) (samples : List Int16) (bits : β) : β :=
  speex.insertTerminator (encodePieces speex samples 4 bits)

/-- The header of a call: the identities it has got. -/
def Handed.header (h : Handed Int16) : List UInt8 :=
  let text := cstr h.id.cells ++
    44 :: (cstr h.gid.cells ++ 44 :: cstr h.id2.cells)
  UInt8.ofNat (1 + text.length) :: text

/-- The frames of the calls, one after the other. -/
def frames (speex : Speex β) : β → List (Handed Int16) → List (List UInt8)
  | _, [] => []
  | bits, h :: hs =>
    let bits := encodeBlock speex h.samples.cells bits
    (h.header ++ speex.write bits 256) :: frames speex (speex.reset bits) hs

/-- The bits left by the calls. -/
def bitsAfter (speex : Speex β) (bits : β) (hs : List (Handed Int16)) : β :=
  hs.foldl (fun b h => speex.reset (encodeBlock speex h.samples.cells b)) bits

/-- The encoder begins a block after `speex_bits_init` or
`speex_bits_reset`. -/
def Speex.Ready (speex : Speex β) (bits : β) : Prop :=
  bits = speex.init ∨ ∃ b, bits = speex.reset b

/-- What `spudp_send` relies on: `speex_bits_write` writes the bytes there
are, and a block comes to at most 160 bytes.  At the quality 8, which
`spudp_init` sets, a frame of 160 samples has 300 bits, so the four frames of a
block come to 151 or 152 bytes, the terminator included. -/
structure Speex.Compact (speex : Speex β) : Prop where
  writes : speex.WritesBytes
  small : ∀ samples bits, speex.Ready bits →
    speex.nbytes (encodeBlock speex samples bits) ≤ 160

section Frames

variable (speex : Speex β) (bits : β) (hs : List (Handed Int16))
  (h : Handed Int16)

theorem frames_concat : frames speex bits (hs ++ [h]) =
    frames speex bits hs ++ [h.header ++ speex.write
      (encodeBlock speex h.samples.cells (bitsAfter speex bits hs)) 256] := by
  induction hs generalizing bits with
  | nil => rfl
  | cons g hs ih => exact congrArg _ (ih _)

theorem bitsAfter_concat : bitsAfter speex bits (hs ++ [h]) =
    speex.reset (encodeBlock speex h.samples.cells
      (bitsAfter speex bits hs)) := by
  rw [bitsAfter, List.foldl_concat]
  rfl

theorem ready_bitsAfter : speex.Ready (bitsAfter speex speex.init hs) := by
  induction hs using List.reverseRecOn with
  | nil => exact Or.inl rfl
  | append_singleton hs h =>
    rw [bitsAfter_concat]
    exact Or.inr ⟨_, rfl⟩

theorem encodePieces_succ (samples : List Int16) (n : Nat) :
    encodePieces speex samples (n + 1) bits =
      speex.encodeInt (blockAt blockLength samples n)
        (encodePieces speex samples n bits) := by
  rw [encodePieces, List.range_succ, List.map_append, List.foldl_append]
  rfl

end Frames

/-! ### The blocks -/

/-- The samples `xs` have been stored, and have completed the `blocks`; the
last of these stands in `block_result`. -/
structure Filled (xs : List Int16) (blocks : List (List Int16))
    (a : Adc Int16) : Prop where
  blocks_ne : a.blockFill ≠ a.blockResult
  nSamples : a.nSamples < blockSize
  accounts : Mailbox.Accounts blockSize xs blocks ⟨none, a.part⟩
  result : ∀ b ∈ blocks.getLast?, (a.block a.blockResult).cells = b
  idle : blocks = [] → a.nConvFinished = 0

section Filled

variable {xs : List Int16} {blocks : List (List Int16)} {a a' : Adc Int16}

theorem filled_init (fn : Bool) : Filled [] [] (adcInit 0 fn) where
  blocks_ne := by simp [adcInit]
  nSamples := blockSize_pos
  accounts := .init blockSize_pos
  result := nofun
  idle _ := rfl

/-- The blocks are those the samples complete. -/
theorem Filled.blocks_eq (h : Filled xs blocks a) : blocks = completed xs := by
  have hcount := h.accounts.completed
  rw [Option.toList_none, List.length_nil, Nat.add_zero] at hcount
  rw [completed, hcount]
  exact h.accounts.taken_eq

/-- **An interrupt** stores its sample, and may complete a block. -/
theorem Filled.irq (h : Filled xs blocks a) {dr : UInt32}
    {fin : List AdcFinished}
    (hstep : adcIRQHandler toSample a dr = ⟨fin, some a'⟩) :
    (a.nSamples + 1 < blockSize ∧ a' = afterMore a (toSample dr) ∧
      Filled (xs ++ [toSample dr]) blocks a') ∨
    (a.nSamples + 1 = blockSize ∧ a' = afterLast a (toSample dr) ∧
      ∃ b, Filled (xs ++ [toSample dr]) (blocks ++ [b]) a') := by
  have hlen := Adc.part_length h.nSamples
  have hput := h.accounts.put (toSample dr) fun _ => rfl
  rcases Nat.lt_or_eq_of_le h.nSamples with hmore | hlast
  · left
    rw [adcIRQHandler_more hmore] at hstep
    obtain ⟨-, rfl⟩ := Traced.pure_eq_mk_iff.mp hstep
    refine ⟨hmore, rfl, ?_, hmore, ?_, ?_, ?_⟩
    · simpa [afterMore] using h.blocks_ne
    · have hpart := take_stored (v := toSample dr) a h.nSamples
      rw [Mailbox.put, if_pos (by simpa [hlen] using hmore)] at hput
      rw [Adc.part, block_afterMore_fill]
      exact hpart ▸ hput
    · rw [block_afterMore_result h.blocks_ne]
      exact h.result
    · simpa [afterMore] using h.idle
  · right
    rw [adcIRQHandler_last hlast] at hstep
    obtain ⟨-, hres⟩ := Traced.mk.inj hstep
    obtain rfl := Option.some.inj hres
    rw [Mailbox.put, if_neg (by
      rw [List.length_append, hlen, List.length_singleton]
      exact Nat.not_lt.mpr (Nat.le_of_eq hlast.symm))] at hput
    refine ⟨hlast, rfl, a.part ++ [toSample dr], ?_, blockSize_pos,
      hput.take rfl, ?_, ?_⟩
    · exact fun e => h.blocks_ne e.symm
    · rw [List.getLast?_concat, cells_afterLast_result hlast]
      exact fun b hb => Option.some.inj hb
    · intro hnil
      simp at hnil

/-- Enabling or disabling the interrupt. -/
theorem Filled.enable (h : Filled xs blocks a) (en : Bool) :
    Filled xs blocks { a with irqEnabled := en } :=
  ⟨h.1, h.2, h.3, h.4, h.5⟩

/-- `n_conv_finished = 0`. -/
theorem Filled.clear (h : Filled xs blocks a) :
    Filled xs blocks { a with nConvFinished := 0 } :=
  ⟨h.1, h.2, h.3, h.4, fun _ => rfl⟩

end Filled

/-! ### The identities -/

/-- The identities are strings, and so is what a turn is about to store. -/
structure Device.Named (d : Device Int16) : Prop where
  call : Terminated d.radio.call
  turn : ∀ todo next, d.main = .acting todo next → Terminated next.2.2 ∧
    ∀ who s, .update who s ∈ todo → 0 ∈ s.cells

theorem Effect.updates {ev : Event} {s s' : Call} {o : List RadioAct}
    (h : Effect ev s o s') (ht : Terminated s') :
    ∀ who x, .update who x ∈ o → 0 ∈ x.cells := by
  intro who x hx
  cases h with
  | callEst => cases hx
  | getSsi =>
    simp only [List.mem_cons, RadioAct.update.injEq, List.not_mem_nil,
      or_false] at hx
    rcases hx with ⟨-, rfl⟩ | ⟨-, rfl⟩
    · exact ht.ssi
    · exact ht.gssi
  | pttPressed =>
    simp only [List.mem_cons, RadioAct.update.injEq, List.not_mem_nil,
      reduceCtorEq, or_false] at hx
    exact hx.2 ▸ ht.ssi2
  | pttReleased =>
    simp only [List.mem_cons, RadioAct.update.injEq, List.not_mem_nil,
      reduceCtorEq, or_false] at hx
    exact hx.2 ▸ ht.ssi2
  | callEnd =>
    simp only [List.mem_cons, RadioAct.update.injEq, List.not_mem_nil,
      or_false] at hx
    rcases hx with ⟨-, rfl⟩ | ⟨-, rfl⟩ <;> exact zero_mem_clearIdentity

/-- A turn that is defined stores strings. -/
theorem scanBody_terminated {buf : List UInt8} {nbytes c : Nat} {len : UInt8}
    {s : Call} {o : List RadioAct} {next : Nat × UInt8 × Call}
    (h : scanBody buf nbytes c len s = ⟨o, some next⟩) (ht : Terminated s) :
    Terminated next.2.2 ∧ ∀ who x, .update who x ∈ o → 0 ∈ x.cells := by
  unfold scanBody at h
  obtain ⟨- | ev, -, hturn⟩ := Traced.ofOption_bind_eq_mk_iff.mp h
  · obtain ⟨rfl, rfl⟩ := Traced.pure_eq_mk_iff.mp hturn
    exact ⟨ht, nofun⟩
  · obtain ⟨⟨len₁, s₁⟩, o₁, hev, hret, rfl⟩ := Traced.bind_eq_mk_iff.mp hturn
    obtain ⟨rfl, rfl⟩ := Traced.pure_eq_mk_iff.mp hret
    rw [List.append_nil]
    replace hev := Traced.eq_mk_of_res hev
    have ht' := (handleEvent_copies hev).2.2 ht
    exact ⟨ht', (handleEvent_effect hev).updates ht'⟩

theorem named_init (fn : Bool) : (deviceInit 0 fn : Device Int16).Named where
  call := ⟨zero_mem_clearIdentity, zero_mem_clearIdentity,
    zero_mem_clearIdentity⟩
  turn := nofun

theorem Device.Named.step {d d' : Device Int16} {i : RadioIn}
    {os : List (DeviceOut Int16)} (hd : d.Named)
    (h : mainLoopStep d i = ⟨os, some d'⟩) : d'.Named := by
  rcases hmain : d.main with - | ⟨c, len⟩ | ⟨- | ⟨a, todo⟩, next⟩ | - | - <;>
    simp only [mainLoopStep, hmain] at h
  · obtain ⟨t, hacc, hrest⟩ := Traced.ofOption_bind_eq_mk_iff.mp h
    have hcall := (accumulate_some hacc).1
    split at hrest
    · obtain ⟨_, rfl, hret⟩ := Traced.emit_bind_eq_mk_iff.mp hrest
      obtain ⟨rfl, rfl⟩ := Traced.pure_eq_mk_iff.mp hret
      exact ⟨hcall ▸ hd.call, by rintro _ _ ⟨⟩⟩
    · obtain ⟨rfl, rfl⟩ := Traced.pure_eq_mk_iff.mp hrest
      exact ⟨hcall ▸ hd.call, by rintro _ _ ⟨⟩⟩
  · unfold scanTurn at h
    split at h
    · split at h
      · next todo next hbody =>
        obtain ⟨rfl, rfl⟩ := Traced.pure_eq_mk_iff.mp h
        refine ⟨hd.call, ?_⟩
        rintro _ _ ⟨⟩
        exact scanBody_terminated hbody hd.call
      · cases congrArg Traced.res h
    · obtain ⟨rfl, rfl⟩ := Traced.pure_eq_mk_iff.mp h
      exact ⟨hd.call, by rintro _ _ ⟨⟩⟩
  · obtain ⟨rfl, rfl⟩ := Traced.pure_eq_mk_iff.mp h
    exact ⟨(hd.turn _ _ hmain).1, by rintro _ _ ⟨⟩⟩
  · obtain ⟨_, rfl, hret⟩ := Traced.emit_bind_eq_mk_iff.mp h
    obtain ⟨rfl, rfl⟩ := Traced.pure_eq_mk_iff.mp hret
    obtain ⟨hnext, htodo⟩ := hd.turn _ _ hmain
    refine ⟨?_, ?_⟩
    · rcases a with - | - | - | ⟨- | - | -, s⟩
      · exact hd.call
      · exact hd.call
      · exact hd.call
      all_goals
        have hs := htodo _ s List.mem_cons_self
        obtain ⟨h₁, h₂, h₃⟩ := hd.call
      · exact ⟨hs, h₂, h₃⟩
      · exact ⟨h₁, hs, h₃⟩
      · exact ⟨h₁, h₂, hs⟩
    · rintro _ _ ⟨⟩
      exact ⟨hnext, fun who s hs => htodo who s (List.mem_cons_of_mem a hs)⟩
  · unfold testFinished at h
    split at h
    · obtain ⟨_, rfl, hret⟩ := Traced.emit_bind_eq_mk_iff.mp h
      obtain ⟨rfl, rfl⟩ := Traced.pure_eq_mk_iff.mp hret
      exact ⟨hd.call, by rintro _ _ ⟨⟩⟩
    · obtain ⟨rfl, rfl⟩ := Traced.pure_eq_mk_iff.mp h
      exact ⟨hd.call, by rintro _ _ ⟨⟩⟩
  · obtain ⟨rfl, rfl⟩ := Traced.pure_eq_mk_iff.mp h
    exact ⟨hd.call, by rintro _ _ ⟨⟩⟩

/-- A string in an array of 32 bytes. -/
theorem exists_name {a : CArray UInt8 32} (h : 0 ∈ a.cells) :
    ∃ (x : Name) (r : List UInt8), a.cells = x.text ++ 0 :: r ∧
      cstr a.cells = x.text := by
  obtain ⟨p, r, hsplit, hp⟩ := List.eq_append_cons_of_mem h
  have hsize := a.size
  rw [hsplit, List.length_append, List.length_cons] at hsize
  exact ⟨⟨p, hp, by omega⟩, r, hsplit,
    by rw [hsplit, cstr_append_zero hp]⟩

/-- **The header of a call** whose identities are strings. -/
theorem buildHeader_handed {h : Handed Int16} (hid : 0 ∈ h.id.cells)
    (hgid : 0 ∈ h.gid.cells) (hid2 : 0 ∈ h.id2.cells)
    (enc : CArray UInt8 256) :
    ∃ n enc' back, buildHeader enc h.id.cells h.gid.cells h.id2.cells =
        some (n, n, enc') ∧
      n.toNat = h.header.length ∧ enc'.cells = h.header ++ back ∧
      0 < h.header.length ∧ h.header.length ≤ 96 := by
  obtain ⟨x, r, hx, hcx⟩ := exists_name hid
  obtain ⟨y, r', hy, hcy⟩ := exists_name hgid
  obtain ⟨z, r'', hz, hcz⟩ := exists_name hid2
  have hheader : h.header = (⟨x, y, z⟩ : Names).header := by
    rw [Handed.header, hcx, hcy, hcz]
    rfl
  obtain ⟨n, enc', back, hbuild, hn, hcells⟩ :=
    buildHeader_names enc ⟨x, y, z⟩ r r' r''
  have hlen := Names.text_length ⟨x, y, z⟩
  have hx31 := x.length_le
  have hy31 := y.length_le
  have hz31 := z.length_le
  rw [hheader, hx, hy, hz]
  refine ⟨n, enc', back, hbuild, hn, hcells, Names.header_pos _, ?_⟩
  rw [Names.header_length]
  simp only at hlen
  omega

/-! ### What the network gets -/

section Net

variable {speex : Speex β} {s s' : Spudp β} {ns : List NetOp}

theorem audioSent_of_control (h : ∀ a ∈ ns, a.chan = .control) :
    audioSent ns = [] := by
  refine List.filterMap_eq_nil_iff.mpr fun a ha => ?_
  have hchan := h a ha
  rcases a with _ | _ | ⟨_ | _, _, _, _⟩ | _
  · rfl
  · rfl
  · cases hchan
  · rfl
  · rfl

/-- What the calls on the control channel leave alone. -/
structure Spudp.SameAudio (s s' : Spudp β) : Prop where
  encBits : s'.encBits = s.encBits
  p : s'.dt.p = s.dt.p

theorem spudpStringSend_sameAudio {buf : List UInt8} {len n : Nat}
    {e : SendEnv} (h : spudpStringSend s buf len e = ⟨ns, some (n, s')⟩) :
    s.SameAudio s' := by
  rcases spudpStringSend_cases h with ⟨-, -, -, rfl⟩ | ⟨ip, p, -, -, rfl, -⟩
  · exact ⟨rfl, rfl⟩
  · exact ⟨rfl, rfl⟩

theorem spudpControlSend_sameAudio {r : Readings} {e : SendEnv}
    (h : spudpControlSend s r e = ⟨ns, some s'⟩) : s.SameAudio s' := by
  unfold spudpControlSend at h
  split at h
  · obtain ⟨⟨n, t⟩, o, hsend, hret, -⟩ := Traced.bind_eq_mk_iff.mp h
    obtain ⟨st, htr⟩ := controlTransition_st s r.now2
    rw [htr] at hsend
    obtain ⟨hbits, hp⟩ :=
      spudpStringSend_sameAudio (Traced.eq_mk_of_res hsend)
    dsimp only at hret
    split at hret <;> obtain ⟨-, rfl⟩ := Traced.pure_eq_mk_iff.mp hret <;>
      exact ⟨hbits, hp⟩
  · obtain ⟨-, rfl⟩ := Traced.pure_eq_mk_iff.mp h
    exact ⟨rfl, rfl⟩

/-- **A call that is no `spudp_send`** asks for nothing on the audio channel
and leaves the encoder alone. -/
theorem spudpStep_sameAudio {op : SpudpOp}
    (h : spudpStep speex s op = ⟨ns, some s'⟩)
    (hop : ∀ id gid id2 x n e, op ≠ .send id gid id2 x n e) :
    audioSent ns = [] ∧ s.SameAudio s' := by
  cases op with
  | input addr t =>
    rw [spudpStep] at h
    split at h
    · obtain ⟨_, rfl, hret⟩ := Traced.emit_bind_eq_mk_iff.mp h
      obtain ⟨rfl, rfl⟩ := Traced.pure_eq_mk_iff.mp hret
      exact ⟨rfl, rfl, rfl⟩
    · obtain ⟨rfl, rfl⟩ := Traced.pure_eq_mk_iff.mp h
      exact ⟨rfl, rfl, rfl⟩
  | controlSend t₁ t₂ t₃ e =>
    refine ⟨audioSent_of_control fun a ha => ?_, spudpControlSend_sameAudio h⟩
    exact spudpControlSend_chan s ⟨clk t₁, clk t₂, clk t₃⟩ e a (by
      rw [spudpStep] at h
      rwa [h])
  | stringSend buf len e =>
    obtain ⟨⟨n, t⟩, hsend, rfl⟩ := Traced.map_eq_mk_iff.mp h
    refine ⟨audioSent_of_control fun a ha => ?_,
      spudpStringSend_sameAudio hsend⟩
    exact spudpStringSend_chan s buf len e a (by rwa [hsend])
  | send id gid id2 x n e => exact absurd rfl (hop id gid id2 x n e)

/-- The datagram of a call is accepted whole, or not at all. -/
theorem sendAudio_audioSent {q : UdpPcb} {enc : CArray UInt8 256}
    {count len n : Nat} {e : SendEnv}
    (h : sendAudio s q enc count len e = ⟨ns, some (n, s')⟩) :
    s'.encBits = s.encBits ∧ s'.dt.p ≠ none ∧
      (audioSent ns).Sublist [enc.cells.take count] := by
  rcases sendAudio_cases s q enc count len e with hs | ⟨-, hs⟩ | ⟨-, hs⟩ <;>
    rw [hs] at h
  · cases congrArg Traced.res h
  all_goals
    obtain ⟨rfl, hres⟩ := Traced.mk.inj h
    obtain ⟨-, rfl⟩ := Prod.mk.inj (Option.some.inj hres)
  · exact ⟨rfl, nofun, List.Sublist.refl _⟩
  · exact ⟨rfl, nofun, List.nil_sublist _⟩

end Net

/-! ### A call of `spudp_send` -/

/-- A call stands in its encoding loop: the pieces it has encoded are pieces
of the block it has got, and the block is still there. -/
structure Encoding.Of (speex : Speex β) (a : Adc Int16) (bits : β)
    (h : Handed Int16) (c : Encoding β) : Prop where
  header : ∃ back, c.enc.cells = h.header ++ back
  cursor : c.cursor.toNat = h.header.length
  allLen : c.allLen = c.cursor
  length : 0 < h.header.length ∧ h.header.length ≤ 96
  ptr : c.ptr = a.blockResult
  samples : (a.block c.ptr).cells = h.samples.cells
  pieces : ∃ n ≤ 4, c.i = blockLength * n ∧
    c.bits = encodePieces speex h.samples.cells n bits

section Of

variable {speex : Speex β} {f f' : Firmware β} {h : Handed Int16}
  {c : Encoding β} {bits : β}

/-- A sample that does not complete its block goes to the other block. -/
theorem Encoding.Of.more {a : Adc Int16} (hof : c.Of speex a bits h)
    (hne : a.blockFill ≠ a.blockResult) (x : Int16) :
    c.Of speex (afterMore a x) bits h := by
  have hptr : c.ptr = (afterMore a x).blockResult := by
    simpa [afterMore] using hof.ptr
  refine { hof with ptr := hptr, samples := ?_ }
  rw [hptr, block_afterMore_result hne, ← hof.ptr]
  exact hof.samples

/-- A piece. -/
theorem Encoding.Of.piece (hof : c.Of speex f.dev.adc bits h)
    (hi : c.i < blockSize) :
    ∃ c', f.encodePiece speex c = { f with encoding := some c' } ∧
      c'.Of speex f.dev.adc bits h := by
  obtain ⟨n, hn, hci, hbits⟩ := hof.pieces
  refine ⟨_, rfl, hof.header, hof.cursor, hof.allLen, hof.length, hof.ptr,
    hof.samples, n + 1, ?_, ?_, ?_⟩
  · have : blockLength * n < blockLength * 4 := hci ▸ hi
    have := Nat.lt_of_mul_lt_mul_left this
    omega
  · show c.i + blockLength = _
    rw [hci, Nat.mul_succ]
  · rw [encodePieces_succ, ← hbits, blockAt, ← hof.samples, ← hci]

/-- The frame of the call, when its block has been encoded. -/
theorem Encoding.Of.frame (hof : c.Of speex f.dev.adc bits h)
    (hw : speex.Compact) (hready : speex.Ready bits)
    (hi : blockSize ≤ c.i) :
    ∃ nbytes enc, writeBits speex (speex.insertTerminator c.bits) c.cursor
        c.enc c.env.nbytes = some (nbytes, enc) ∧
      speex.insertTerminator c.bits =
        encodeBlock speex h.samples.cells bits ∧
      (nbytes + c.allLen.toUInt32).toNat ≤ 256 ∧
      enc.cells.take (nbytes + c.allLen.toUInt32).toNat = h.header ++
        speex.write (encodeBlock speex h.samples.cells bits) 256 := by
  obtain ⟨n, hn, hci, hbits⟩ := hof.pieces
  obtain rfl : n = 4 := by
    have : blockLength * 4 ≤ blockLength * n := hci ▸ hi
    have := Nat.le_of_mul_le_mul_left this (by decide)
    omega
  have hterm : speex.insertTerminator c.bits =
      encodeBlock speex h.samples.cells bits := by
    rw [hbits]
    rfl
  have hsmall := hw.small h.samples.cells bits hready
  rw [hterm]
  generalize encodeBlock speex h.samples.cells bits = b at hsmall ⊢
  have hlen : (speex.write b 256).length ≤ 160 := by
    have := hw.writes b 256
    omega
  obtain ⟨hpos, h96⟩ := hof.length
  obtain ⟨back, hcells⟩ := hof.header
  have hroom : h.header.length + (speex.write b 256).length ≤ 256 := by omega
  obtain ⟨enc, back', hwrite, hcells'⟩ := writeBits_eq hw.writes hcells
    hof.cursor hpos hroom c.env.nbytes
  have hcount : (UInt32.ofNat (speex.write b 256).length +
      c.allLen.toUInt32).toNat =
        (h.header ++ speex.write b 256).length := by
    have := c.allLen.toNat_lt
    rw [UInt32.toNat_add, UInt32.toNat_ofNat', UInt8.toNat_toUInt32,
      List.length_append, hof.allLen, hof.cursor]
    omega
  refine ⟨_, enc, hwrite, rfl, ?_, ?_⟩
  · rw [hcount, List.length_append]
    exact hroom
  · rw [hcount, hcells', List.take_left]

/-- **The rest of the call** tries the frame of its block. -/
theorem Encoding.Of.finish (hof : c.Of speex f.dev.adc bits h)
    (hw : speex.Compact) (hready : speex.Ready bits) (hi : blockSize ≤ c.i)
    (hp : f.spudp.dt.p ≠ none) {o : List FirmwareOut}
    (hend : f.endSend speex c = ⟨o, some f'⟩) :
    ∃ ns s, o = ns.map .net ∧ f' = { f with spudp := s, encoding := none } ∧
      s.encBits = speex.reset (encodeBlock speex h.samples.cells bits) ∧
      s.dt.p ≠ none ∧ (audioSent ns).Sublist [h.header ++
        speex.write (encodeBlock speex h.samples.cells bits) 256] := by
  obtain ⟨nbytes, enc, hwrite, hterm, -, htake⟩ := hof.frame hw hready hi
  obtain ⟨nbytes', enc', s, hwrite', rfl, hsend⟩ := endSend_cases hend
  obtain ⟨rfl, rfl⟩ :=
    Prod.mk.inj (Option.some.inj (hwrite.symm.trans hwrite'))
  rw [hterm] at hsend
  rcases hsend with ⟨-, rfl, rfl⟩ | ⟨q, ns, k, -, rfl, hsend⟩
  · exact ⟨[], _, rfl, rfl, rfl, hp, List.nil_sublist _⟩
  · obtain ⟨hbits, hp', hsent⟩ := sendAudio_audioSent hsend
    rw [htake] at hsent
    exact ⟨ns, s, rfl, rfl, hbits, hp', hsent⟩

end Of

/-! ### Whole runs -/

/-- What has been sampled, handed on and accepted. -/
structure AudioInv (speex : Speex β) (o : List FirmwareOut)
    (f : Firmware β) : Prop where
  filled : Filled (samplesIn o) (completed (samplesIn o)) f.dev.adc
  named : f.dev.Named
  handed : ((handedOf (deviceIn o)).map (·.samples.cells)).Sublist
    (completed (samplesIn o))
  fresh : f.dev.adc.nConvFinished ≠ 0 → f.dev.main ≠ .sending →
    ((handedOf (deviceIn o)).map (·.samples.cells)).Sublist
      (completed (samplesIn o)).dropLast
  pcb : f.spudp.dt.p ≠ none
  idle : f.encoding = none →
    f.spudp.encBits = bitsAfter speex speex.init (handedOf (deviceIn o)) ∧
    (audioSent (netIn o)).Sublist
      (frames speex speex.init (handedOf (deviceIn o)))
  busy : ∀ c, f.encoding = some c → f.dev.main = .sending ∧ ∃ hs h,
    handedOf (deviceIn o) = hs ++ [h] ∧
    f.spudp.encBits = bitsAfter speex speex.init hs ∧
    (audioSent (netIn o)).Sublist (frames speex speex.init hs) ∧
    c.Of speex f.dev.adc f.spudp.encBits h

section Runs

variable {speex : Speex β} {f f' : Firmware β} {i : MainIn}
  {o o' : List FirmwareOut}

theorem audioInv_init {s s₀ : Spudp β} {server1 server2 : Option UInt32}
    {e : InitEnv} (hinit : spudpInit speex s server1 server2 e = some s₀)
    (rxbuff : CArray UInt8 rxSize) (k : Nat) :
    AudioInv speex [] (firmwareInit rxbuff k s₀) := by
  have hs₀ : s₀.encBits = speex.init ∧ s₀.dt.p ≠ none := by
    unfold spudpInit at hinit
    rcases e with ⟨_ | _, _ | _, _ | _, _ | _, now1, now2⟩ <;> cases hinit <;>
      exact ⟨rfl, nofun⟩
  exact ⟨filled_init false, named_init false, List.Sublist.refl _,
    fun h => absurd rfl h, hs₀.2, fun _ => ⟨hs₀.1, List.Sublist.refl _⟩,
    nofun⟩

/-- A call that is no `spudp_send`. -/
theorem AudioInv.call (h : AudioInv speex o f) (hidle : f.encoding = none)
    {ns : List NetOp} {s : Spudp β} (hns : audioSent ns = [])
    (hs : f.spudp.SameAudio s) (served : Bool) :
    AudioInv speex (o ++ ns.map .net) { f with spudp := s, served } := by
  obtain ⟨hbits, hsent⟩ := h.idle hidle
  have hsamples : samplesIn (o ++ ns.map .net) = samplesIn o := by simp
  have hdevice : deviceIn (o ++ ns.map .net) = deviceIn o := by simp
  refine ⟨?_, h.named, ?_, ?_, hs.p ▸ h.pcb, fun _ => ⟨?_, ?_⟩, ?_⟩
  · rw [hsamples]
    exact h.filled
  · rw [hsamples, hdevice]
    exact h.handed
  · rw [hsamples, hdevice]
    exact h.fresh
  · rw [hdevice]
    exact hs.encBits.trans hbits
  · rw [hdevice, netIn_append, netIn_map_net, audioSent_append, hns,
      List.append_nil]
    exact hsent
  · intro c hc
    rw [hidle] at hc
    cases hc

theorem AudioInv.encoding_eq_none (h : AudioInv speex o f)
    (hmain : f.dev.main ≠ .sending) : f.encoding = none := by
  rcases hc : f.encoding with - | c
  · rfl
  · exact absurd (h.busy c hc).1 hmain

theorem Reads.encoding_eq_none {chunk : List UInt8} {rxring : RxRing}
    (hread : Reads f chunk rxring) (h : AudioInv speex o f) :
    f.encoding = none := by
  cases hread with
  | enter hmain => exact h.encoding_eq_none (by rw [hmain]; nofun)
  | inside _ hdone =>
    by_cases hmain : f.dev.main = .sending
    · exact hdone hmain
    · exact h.encoding_eq_none hmain

/-- A step of the device that hands on no block. -/
theorem AudioInv.device (h : AudioInv speex o f) {chunk : List UInt8}
    {rxring : RxRing} {os : List (DeviceOut Int16)} {dev : Device Int16}
    (hread : Reads f chunk rxring)
    (hstep : mainLoopStep f.dev ⟨chunk, i.len⟩ = ⟨os, some dev⟩)
    (hos : handedOf os = []) :
    AudioInv speex (o ++ os.map .device)
      { f with dev, rxring, served := false } := by
  have hidle := hread.encoding_eq_none h
  have hsamples : samplesIn (o ++ os.map .device) = samplesIn o := by simp
  have hhanded : handedOf (deviceIn (o ++ os.map .device)) =
      handedOf (deviceIn o) := by simp [hos]
  have hnet : netIn (o ++ os.map .device) = netIn o := by simp
  refine ⟨?_, h.named.step hstep, ?_, ?_, h.pcb, fun _ => ?_, ?_⟩
  · rw [hsamples]
    rcases mainLoopStep_handing hstep with ⟨-, -, rfl, -⟩ | ⟨-, -, rfl⟩ |
      ⟨-, -, -, en, hadc⟩
    · cases hos
    · exact h.filled.clear
    · rw [hadc]
      exact h.filled.enable en
  · rw [hsamples, hhanded]
    exact h.handed
  · rw [hsamples, hhanded]
    intro hc hmain
    rcases mainLoopStep_handing hstep with ⟨-, -, rfl, -⟩ | ⟨-, -, rfl⟩ |
      ⟨hmain', -, -, en, hadc⟩
    · cases hos
    · exact absurd rfl hc
    · rw [hadc] at hc
      exact h.fresh hc hmain'
  · rw [hhanded, hnet]
    exact h.idle hidle
  · intro c hc
    rw [hidle] at hc
    cases hc

/-- A block is handed to `spudp_send`. -/
theorem AudioInv.begin (h : AudioInv speex o f) {b : Handed Int16}
    {dev : Device Int16} {allLen cursor : UInt8} {enc : CArray UInt8 256}
    (hstep : mainLoopStep f.dev ⟨[], i.len⟩ = ⟨[.handed b], some dev⟩)
    (hheader : buildHeader i.env.enc b.id.cells b.gid.cells b.id2.cells =
      some (allLen, cursor, enc)) :
    AudioInv speex (o ++ [.device (.handed b)]) { f with
      dev
      served := false
      encoding := some ⟨allLen, cursor, enc, f.dev.adc.blockResult, 0,
        f.spudp.encBits, i.env⟩ } := by
  rcases mainLoopStep_handing hstep with ⟨htest, hfin, hb, rfl⟩ | ⟨-, hnil, -⟩ |
    ⟨-, hnil, -⟩
  swap
  · cases hnil
  swap
  · cases hnil
  obtain rfl : b = f.dev.handed := by simpa using hb
  have hmain : f.dev.main ≠ .sending := by rw [htest]; nofun
  obtain ⟨hbits, hsent⟩ := h.idle (h.encoding_eq_none hmain)
  have hcall := h.named.call
  obtain ⟨n, enc', back, hbuild, hn, hcells, hpos, h96⟩ :=
    buildHeader_handed (h := f.dev.handed) hcall.ssi hcall.gssi hcall.ssi2
      i.env.enc
  have heq := Option.some.inj (hbuild.symm.trans hheader)
  simp only [Prod.mk.injEq] at heq
  obtain ⟨rfl, rfl, rfl⟩ := heq
  -- the block handed on is the last one completed
  have hsnoc : (handedOf (deviceIn o) ++ [f.dev.handed]).map
      (·.samples.cells) = (handedOf (deviceIn o)).map (·.samples.cells) ++
        [(f.dev.adc.block f.dev.adc.blockResult).cells] := by
    rw [List.map_append]
    rfl
  have hhanded : handedOf (deviceIn (o ++ [.device (.handed f.dev.handed)])) =
      handedOf (deviceIn o) ++ [f.dev.handed] := by
    rw [deviceIn_append, handedOf_append]
    rfl
  have hsamples : samplesIn (o ++ [.device (.handed f.dev.handed)]) =
      samplesIn o := by rw [samplesIn_append]; exact List.append_nil _
  have hnet : netIn (o ++ [.device (.handed f.dev.handed)]) = netIn o := by
    rw [netIn_append]
    exact List.append_nil _
  refine ⟨?_, h.named.step hstep, ?_, fun _ hs => absurd rfl hs, h.pcb, nofun,
    ?_⟩
  · rw [hsamples]
    exact h.filled
  · rw [hsamples, hhanded, hsnoc]
    have hne : completed (samplesIn o) ≠ [] := fun hnil =>
      hfin (h.filled.idle hnil)
    have hlast := h.filled.result _ (List.getLast?_eq_some_getLast hne)
    have hsub := (h.fresh hfin hmain).append_right
      [(completed (samplesIn o)).getLast hne]
    rw [hlast]
    rwa [List.dropLast_append_getLast hne] at hsub
  · rintro c ⟨⟩
    refine ⟨rfl, handedOf (deviceIn o), f.dev.handed, hhanded, hbits, ?_, ?_⟩
    · rw [hnet]
      exact hsent
    · exact ⟨⟨back, hcells⟩, hn, rfl, ⟨hpos, h96⟩, rfl, rfl, 0,
        Nat.zero_le 4, rfl, rfl⟩

/-- A step of the main loop. -/
theorem AudioInv.move (h : AudioInv speex o f) (hw : speex.Compact)
    (hm : Move speex f i o' f') : AudioInv speex (o ++ o') f' := by
  cases hm with
  | quiet hmain =>
    have hidle := h.encoding_eq_none (by rw [hmain]; nofun)
    have hnone : audioSent [] = [] := rfl
    exact h.call hidle hnone ⟨rfl, rfl⟩ true
  | input hmain hs =>
    obtain ⟨hns, hsame⟩ := spudpStep_sameAudio hs nofun
    exact h.call (h.encoding_eq_none (by rw [hmain]; nofun)) hns hsame true
  | control hmain hs =>
    obtain ⟨hns, hsame⟩ := spudpStep_sameAudio hs nofun
    exact h.call (h.encoding_eq_none (by rw [hmain]; nofun)) hns hsame true
  | device hread hstep hos =>
    refine h.device hread hstep ?_
    rcases hos with rfl | ⟨a, rfl, -⟩ <;> rfl
  | text hread hstep hs =>
    obtain ⟨hns, hsame⟩ := spudpStep_sameAudio hs nofun
    have hdev := h.device hread hstep rfl
    have hcall := hdev.call (hread.encoding_eq_none h) hns hsame false
    rw [List.append_assoc] at hcall
    exact hcall
  | off hstep hheader hp => exact absurd hp h.pcb
  | begin hstep hheader => exact h.begin hstep hheader
  | piece hmain hc hi =>
    obtain ⟨-, hs, b, hhs, hbits, hsent, hof⟩ := h.busy _ hc
    obtain ⟨c', heq, hof'⟩ := hof.piece hi
    rw [heq, List.append_nil]
    refine ⟨h.filled, h.named, h.handed, h.fresh, h.pcb, nofun, ?_⟩
    rintro _ ⟨⟩
    exact ⟨hmain, hs, b, hhs, hbits, hsent, hof'⟩
  | finish hmain hc hi hend =>
    obtain ⟨-, hs, b, hhs, hbits, hsent, hof⟩ := h.busy _ hc
    have hready : speex.Ready f.spudp.encBits := by
      rw [hbits]
      exact ready_bitsAfter speex hs
    obtain ⟨ns, s, rfl, rfl, hbits', hp', hframe⟩ :=
      hof.finish hw hready hi h.pcb hend
    have hsamples : samplesIn (o ++ ns.map .net) = samplesIn o := by simp
    have hdevice : deviceIn (o ++ ns.map .net) = deviceIn o := by simp
    refine ⟨?_, h.named, ?_, ?_, hp', fun _ => ⟨?_, ?_⟩, nofun⟩
    · rw [hsamples]
      exact h.filled
    · rw [hsamples, hdevice]
      exact h.handed
    · rw [hsamples, hdevice]
      exact h.fresh
    · rw [hdevice, hhs, bitsAfter_concat, ← hbits]
      exact hbits'
    · rw [hdevice, hhs, frames_concat, ← hbits, netIn_append, netIn_map_net,
        audioSent_append]
      exact hsent.append hframe

/-- The samples and the calls after an interrupt. -/
theorem observed_irq (o : List FirmwareOut) (x : Int16)
    (fin : List AdcFinished) :
    let o' := o ++ .sample x :: (fin.map DeviceOut.finished).map .device
    samplesIn o' = samplesIn o ++ [x] ∧ netIn o' = netIn o ∧
      handedOf (deviceIn o') = handedOf (deviceIn o) := by
  refine ⟨?_, ?_, ?_⟩
  · rw [samplesIn_append]
    exact congrArg (_ ++ x :: ·) (samplesIn_map_device _)
  · rw [netIn_append]
    exact (congrArg _ (netIn_map_device _)).trans (List.append_nil _)
  · rw [deviceIn_append, handedOf_append]
    refine (congrArg _ ?_).trans (List.append_nil _)
    refine (congrArg handedOf (deviceIn_map_device _)).trans ?_
    simp [handedOf]

/-- An interrupt of the converter. -/
theorem AudioInv.adc (h : AudioInv speex o f) {dr : UInt32}
    (hun : Undisturbed f (.adc dr)) (hstep : f.adcStep dr = ⟨o', some f'⟩) :
    AudioInv speex (o ++ o') f' := by
  rcases adcStep_cases hstep with ⟨-, rfl, rfl⟩ |
    ⟨hen, fin, adc, hirq, rfl, rfl⟩
  · rwa [List.append_nil]
  obtain ⟨hsamples, hnet, hhanded⟩ := observed_irq o (toSample dr) fin
  rcases h.filled.irq hirq with ⟨hmore, rfl, hfilled⟩ |
    ⟨hlast, rfl, b, hfilled⟩
  · -- the block goes on
    have hblocks := hfilled.blocks_eq
    refine ⟨?_, ⟨h.named.call, h.named.turn⟩, ?_, ?_, h.pcb, ?_, ?_⟩
    · rw [hsamples, ← hblocks]
      exact hfilled
    · rw [hsamples, hhanded, ← hblocks]
      exact h.handed
    · rw [hsamples, hhanded, ← hblocks]
      simpa [afterMore] using h.fresh
    · rw [hnet, hhanded]
      exact h.idle
    · rw [hnet, hhanded]
      intro c hc
      obtain ⟨hmain, hs, g, hhs, hbits, hsent, hof⟩ := h.busy c hc
      exact ⟨hmain, hs, g, hhs, hbits, hsent,
        hof.more h.filled.blocks_ne _⟩
  · -- the block is complete, so nothing is being sent
    have hmain : f.dev.main ≠ .sending := by
      intro hmain
      have := hun hmain hen
      omega
    have hblocks := hfilled.blocks_eq
    refine ⟨?_, ⟨h.named.call, h.named.turn⟩, ?_, ?_, h.pcb, ?_, ?_⟩
    · rw [hsamples, ← hblocks]
      exact hfilled
    · rw [hsamples, hhanded, ← hblocks]
      exact h.handed.trans (List.sublist_append_left _ _)
    · rw [hsamples, hhanded, ← hblocks, List.dropLast_concat]
      exact fun _ _ => h.handed
    · rw [hnet, hhanded]
      exact h.idle
    · intro c hc
      exact absurd (h.busy c hc).1 hmain

theorem AudioInv.step (h : AudioInv speex o f) (hw : speex.Compact)
    {a : FirmwareAct} (hun : Undisturbed f a)
    (hstep : firmwareStep speex f a = ⟨o', some f'⟩) :
    AudioInv speex (o ++ o') f' := by
  cases a with
  | adc dr => exact h.adc hun hstep
  | uart b =>
    obtain ⟨r, rfl, hout⟩ := uartStep_cases hstep
    have hsame : samplesIn o' = [] ∧ deviceIn o' = [] ∧ netIn o' = [] := by
      rcases hout with rfl | rfl <;> exact ⟨rfl, rfl, rfl⟩
    obtain ⟨h₁, h₂, h₃⟩ := hsame
    refine ⟨?_, h.named, ?_, ?_, h.pcb, ?_, ?_⟩ <;>
      simp only [samplesIn_append, deviceIn_append, netIn_append, h₁, h₂, h₃,
        List.append_nil]
    · exact h.filled
    · exact h.handed
    · exact h.fresh
    · exact h.idle
    · exact h.busy
  | main i => exact h.move hw (mainStep_move hstep)

end Runs

/-- **The way of the audio.**  In every run in which no block is completed
while another one is being sent, and with an encoder that makes at most 160
bytes of a block, the blocks handed to `spudp_send` are some of
the completed blocks, in order and none twice; and what the network has
accepted on the audio channel are the frames of some of these calls, whole and
in order. -/
theorem audio_path {speex : Speex β} (hw : speex.Compact) {s s₀ : Spudp β}
    {server1 server2 : Option UInt32} {e : InitEnv}
    (hinit : spudpInit speex s server1 server2 e = some s₀)
    {rxbuff : CArray UInt8 rxSize} {k : Nat} {acts : List FirmwareAct}
    (hun : ∀ o f a, Feeds (firmwareStep speex) (firmwareInit rxbuff k s₀) acts
      o f a → Undisturbed f a)
    {o : List FirmwareOut} {f : Firmware β}
    (h : Visits (firmwareStep speex) (firmwareInit rxbuff k s₀) acts o f) :
    ((handedOf (deviceIn o)).map (·.samples.cells)).Sublist
        (completed (samplesIn o)) ∧
      (audioSent (netIn o)).Sublist
        (frames speex speex.init (handedOf (deviceIn o))) := by
  have hinv : AudioInv speex o f := visits_inv (audioInv_init hinit rxbuff k)
    (fun o f a _ _ hf ht hstep => ht.step hw (hun o f a hf) hstep) h
  refine ⟨hinv.handed, ?_⟩
  rcases hc : f.encoding with - | c
  · exact (hinv.idle hc).2
  · obtain ⟨-, hs, b, hhs, -, hsent, -⟩ := hinv.busy c hc
    rw [hhs, frames_concat]
    exact hsent.trans (List.sublist_append_left _ _)

/-- `countingSpeex` makes 151 bytes of a block. -/
theorem countingSpeex_compact : countingSpeex.Compact where
  writes := countingSpeex_writesBytes
  small := by
    have h : (0 + 300 + 300 + 300 + 300 + 5 + 7) / 8 ≤ 160 := by decide
    rintro samples _ (rfl | ⟨b, rfl⟩) <;> exact h

/-- A step of the main loop at time 1. -/
def mainNow (packet : Option UInt32) : FirmwareAct :=
  .main ⟨0, packet, 1, 1, 1, ⟨⟨true, true⟩, CArray.fill 256 0, 0⟩⟩

/-- The first server answers, a station presses its key, and a block is
sampled and sent. -/
def talk : List FirmwareAct :=
  (bytesOf "+CTXG:0,3,0,0,0,255\r\n").map .uart ++ [mainNow (some 10)] ++
    List.replicate 25 (mainNow none) ++
    List.replicate blockSize (.adc 0x8000) ++
    List.replicate 20 (mainNow none)

theorem audio_path_talk :
    let r := run (firmwareStep countingSpeex)
      (firmwareInit (CArray.fill rxSize 0) 20 spudpStart) talk
    (audioSent (netIn r.out)).length = 1 ∧
      ((handedOf (deviceIn r.out)).map (·.samples.cells)).Sublist
        (completed (samplesIn r.out)) ∧
      (audioSent (netIn r.out)).Sublist
        (frames countingSpeex countingSpeex.init
          (handedOf (deviceIn r.out))) := by
  intro r
  have hrun : r.res.isSome = true ∧ (audioSent (netIn r.out)).length = 1 := by
    decide +kernel
  obtain ⟨f, hf⟩ := Option.isSome_iff_exists.mp hrun.1
  have hcheck : checkRun (firmwareStep countingSpeex)
      (fun f a => decide (Undisturbed f a))
      (firmwareInit (CArray.fill rxSize 0) 20 spudpStart) talk = true := by
    decide +kernel
  have hun (o f a) (hfeed : Feeds (firmwareStep countingSpeex)
      (firmwareInit (CArray.fill rxSize 0) 20 spudpStart) talk o f a) :
      Undisturbed f a := by
    have hok := checkRun_feeds hcheck hfeed
    exact of_decide_eq_true hok
  have hvisits : Visits (firmwareStep countingSpeex)
      (firmwareInit (CArray.fill rxSize 0) 20 spudpStart) talk r.out f :=
    Visits.end (Traced.eq_mk_of_res hf)
  exact ⟨hrun.2,
    audio_path countingSpeex_compact spudpStart_init hun hvisits⟩

end Roip
