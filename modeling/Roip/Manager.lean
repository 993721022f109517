/-
Roip/Manager.lean

The connection manager as a machine.

Its inputs are the control packets that arrive and the three kinds of send of
the main loop, with the times at which they read the counter (`SpudpOp`).  For
each function this file says once what a call can do: `spudpStringSend_cases`
for the control channel, `spudpSend_cases` for audio, and
`spudpControlSend_cases` for the periodic check.
-/
import Roip.Lib.Clock
import Roip.SpeexUdp

namespace Roip

variable {β : Type}

/-- What the connection manager meets. -/
inductive SpudpOp
  /-- a control packet from `addr`, read at time `t` -/
  | input (addr : UInt32) (t : Nat)
  /-- `spudp_control_send`, reading the counter at `t₁`, `t₂` and `t₃` -/
  | controlSend (t₁ t₂ t₃ : Nat) (e : SendEnv)
  | stringSend (buf : List UInt8) (len : Nat) (e : SendEnv)
  | send (id gid id2 : List UInt8) (samples : List Int16) (len : Nat)
    (e : AudioEnv)

/-- Whether `handleControlInput` is registered. -/
def Spudp.receives (s : Spudp β) : Bool := s.pctl.any (·.recv)

/-- One call.  A packet reaches `handleControlInput` if it is registered. -/
def spudpStep (speex : Speex β) (s : Spudp β) :
    SpudpOp → Traced NetOp (Spudp β)
  | .input addr t =>
    if s.receives then handleControlInput s addr (clk t) else pure s
  | .controlSend t₁ t₂ t₃ e =>
    spudpControlSend s ⟨clk t₁, clk t₂, clk t₃⟩ e
  | .stringSend buf len e => Prod.snd <$> spudpStringSend s buf len e
  | .send id gid id2 samples len e =>
    Prod.snd <$> spudpSend speex s id gid id2 samples len e

/-! ### The control channel -/

/-- The channel of a request. -/
def NetOp.chan : NetOp → Chan
  | .pbufAlloc c _ => c
  | .pbufFree c => c
  | .sent c _ _ _ => c
  | .refused c _ _ => c

theorem spudpStringSend_chan (s : Spudp β) (buf : List UInt8) (len : Nat)
    (e : SendEnv) : (spudpStringSend s buf len e).Only (·.chan = .control) := by
  have hact (o : NetOp) (h : o.chan = .control) :
      (Traced.emit o).Only (·.chan = .control) := Traced.only_emit h
  have hundef : (Traced.undef : Traced NetOp (Nat × Spudp β)).Only
      (·.chan = .control) := nofun
  have hdone (x : Nat × Spudp β) :
      (pure x : Traced NetOp _).Only (·.chan = .control) :=
    Traced.only_pure _ x
  unfold spudpStringSend
  split
  · split
    · exact hdone _
    · refine (Traced.only_ofOption _ _).bind fun p => ?_
      refine (hact _ rfl).bind fun _ => ?_
      split
      · split
        · exact (hact _ rfl).bind fun _ => (hact _ rfl).bind fun _ => hdone _
        · exact (hact _ rfl).bind fun _ => (hact _ rfl).bind fun _ => hdone _
      · exact hundef
  · exact hundef

/-- **A send on the control channel.**  Nothing is done without a selected
server; otherwise its address is tried, and the control block is left without
a remote address. -/
theorem spudpStringSend_cases {s s' : Spudp β} {buf : List UInt8}
    {len n : Nat} {e : SendEnv} {o : List NetOp}
    (h : spudpStringSend s buf len e = ⟨o, some (n, s')⟩) :
    (s.dt.serverAddr = none ∧ o = [] ∧ n = 0 ∧ s' = s) ∨
    ∃ ip p, s.dt.serverAddr = some ip ∧ s.pctl = some p ∧
      s' = { s with pctl := some (udpDisconnect p) } ∧
      ((o = [.pbufAlloc .control len, .sent .control ip 5199 (buf.take len),
          .pbufFree .control] ∧ n = len ∧ 0 < len ∧ ip ≠ 0 ∧ e.link) ∨
        (o = [.pbufAlloc .control len, .refused .control ip 5199,
          .pbufFree .control] ∧ n = 0 ∧ ¬ (ip ≠ 0 ∧ e.link))) := by
  unfold spudpStringSend at h
  split at h
  swap
  · cases congrArg Traced.res h
  next hlen =>
    split at h
    · next hs =>
      simp only [Traced.pure_eq_mk_iff, Prod.mk.injEq] at h
      obtain ⟨rfl, rfl, rfl⟩ := h
      exact Or.inl ⟨hs, rfl, rfl, rfl⟩
    · next ip hs =>
      obtain ⟨p, hp, halloc⟩ := Traced.ofOption_bind_eq_mk_iff.mp h
      obtain ⟨o₁, rfl, hcopy⟩ := Traced.emit_bind_eq_mk_iff.mp halloc
      -- sent or refused, the block is disconnected and the packet freed
      refine Or.inr ⟨ip, p, hs, hp, ?_⟩
      split at hcopy
      swap
      · cases congrArg Traced.res hcopy
      split at hcopy
      · next hsend =>
        simp only [Traced.emit_bind_eq_mk_iff, Traced.pure_eq_mk_iff,
          Prod.mk.injEq] at hcopy
        obtain ⟨_, rfl, _, rfl, rfl, rfl, rfl⟩ := hcopy
        have hok : e.link = true ∧ ip ≠ 0 := by
          simpa [udpSend, udpConnect] using hsend
        exact ⟨rfl, Or.inl ⟨rfl, rfl, hlen.1, hok.2, hok.1⟩⟩
      · next hsend =>
        simp only [Traced.emit_bind_eq_mk_iff, Traced.pure_eq_mk_iff,
          Prod.mk.injEq] at hcopy
        obtain ⟨_, rfl, _, rfl, rfl, rfl, rfl⟩ := hcopy
        refine ⟨rfl, Or.inr ⟨rfl, rfl, ?_⟩⟩
        rintro ⟨hip, hlink⟩
        simp [udpSend, udpConnect, hip, hlink] at hsend

/-- The test of the sending period. -/
def Spudp.due (s : Spudp β) (now : UInt32) : Prop :=
  5000 < now - s.tmCtlpacketSent

instance (s : Spudp β) (now : UInt32) : Decidable (s.due now) :=
  inferInstanceAs (Decidable (_ < _))

/-- The transition assigns to `dt.st` only. -/
theorem controlTransition_st (s : Spudp β) (now : UInt32) :
    ∃ st, controlTransition s now = { s with dt := { s.dt with st } } := by
  unfold controlTransition
  split
  · split
    · exact ⟨_, rfl⟩
    · exact ⟨s.dt.st, rfl⟩
  · exact ⟨_, rfl⟩

/-- **The periodic check.**  Before the period is over nothing happens.
Afterwards the state makes its transition and a sync packet is tried; the time
is taken only if it has been accepted. -/
theorem spudpControlSend_cases {s s' : Spudp β} {r : Readings} {e : SendEnv}
    {o : List NetOp} (h : spudpControlSend s r e = ⟨o, some s'⟩) :
    (¬ s.due r.now1 ∧ o = [] ∧ s' = s) ∨
    (s.due r.now1 ∧ s'.dt = (controlTransition s r.now2).dt ∧
      s'.receives = s.receives ∧
      s'.tmCtlpacketReceived = s.tmCtlpacketReceived ∧
      ((∃ ip, s'.dt.serverAddr = some ip ∧ ip ≠ 0 ∧ e.link = true ∧
          o = [.pbufAlloc .control 32, .sent .control ip 5199 syncPayload,
            .pbufFree .control] ∧ s'.tmCtlpacketSent = r.now3) ∨
        (s'.tmCtlpacketSent = s.tmCtlpacketSent ∧
          (s'.dt.serverAddr = none ∧ o = [] ∨
            ∃ ip, s'.dt.serverAddr = some ip ∧ ¬ (ip ≠ 0 ∧ e.link = true) ∧
              o = [.pbufAlloc .control 32, .refused .control ip 5199,
                .pbufFree .control])))) := by
  unfold spudpControlSend at h
  split at h
  swap
  · next hdue =>
    obtain ⟨rfl, rfl⟩ := Traced.pure_eq_mk_iff.mp h
    exact Or.inl ⟨hdue, rfl, rfl⟩
  next hdue =>
    obtain ⟨⟨n, t⟩, o₁, hsend, hret, rfl⟩ := Traced.bind_eq_mk_iff.mp h
    obtain ⟨st, htr⟩ := controlTransition_st s r.now2
    rw [htr] at hsend ⊢
    refine Or.inr ⟨hdue, ?_⟩
    dsimp only at hret
    rcases spudpStringSend_cases (Traced.eq_mk_of_res hsend) with
      ⟨hsel, hout, rfl, rfl⟩ | ⟨ip, p, hsel, hp, rfl, hsent⟩
    · -- no server selected: nothing is sent
      rw [if_neg (Nat.lt_irrefl 0)] at hret
      obtain ⟨rfl, rfl⟩ := Traced.pure_eq_mk_iff.mp hret
      refine ⟨rfl, rfl, rfl, Or.inr ⟨rfl, Or.inl ⟨hsel, ?_⟩⟩⟩
      rw [hout]
      rfl
    · replace hp : s.pctl = some p := hp
      have hrecv : (some (udpDisconnect p)).any (·.recv) = s.receives := by
        rw [Spudp.receives, hp]
        rfl
      rcases hsent with ⟨hout, rfl, -, hip, hlink⟩ | ⟨hout, rfl, hfail⟩
      · rw [if_pos (by decide)] at hret
        obtain ⟨rfl, rfl⟩ := Traced.pure_eq_mk_iff.mp hret
        refine ⟨rfl, hrecv, rfl, Or.inl ⟨ip, hsel, hip, hlink, ?_, rfl⟩⟩
        rw [hout, List.append_nil]
        rfl
      · rw [if_neg (Nat.lt_irrefl 0)] at hret
        obtain ⟨rfl, rfl⟩ := Traced.pure_eq_mk_iff.mp hret
        refine ⟨rfl, hrecv, rfl, Or.inr ⟨rfl, Or.inr ⟨ip, hsel, hfail, ?_⟩⟩⟩
        rw [hout]
        rfl

theorem spudpControlSend_chan (s : Spudp β) (r : Readings) (e : SendEnv) :
    (spudpControlSend s r e).Only (·.chan = .control) := by
  unfold spudpControlSend
  split
  · refine (spudpStringSend_chan _ _ _ _).bind ?_
    rintro ⟨n, t⟩
    dsimp only
    split <;> exact Traced.only_pure _ _
  · exact Traced.only_pure _ _

/-! ### Audio -/

/-- The last part of `spudp_send`. -/
theorem sendAudio_cases (s : Spudp β) (q : UdpPcb) (enc : CArray UInt8 256)
    (count len : Nat) (e : SendEnv) :
    sendAudio s q enc count len e =
        ⟨[.pbufAlloc .audio (count % 2 ^ 16)], none⟩ ∨
      (udpSend q e.link = true ∧ sendAudio s q enc count len e =
        ⟨[.pbufAlloc .audio (count % 2 ^ 16),
          .sent .audio q.remoteIp q.remotePort (enc.cells.take count),
          .pbufFree .audio],
          some (len, { s with dt := { s.dt with p := udpDisconnect q } })⟩) ∨
      (udpSend q e.link = false ∧ sendAudio s q enc count len e =
        ⟨[.pbufAlloc .audio (count % 2 ^ 16),
          .refused .audio q.remoteIp q.remotePort, .pbufFree .audio],
          some (0, { s with dt := { s.dt with p := q } })⟩) := by
  unfold sendAudio
  split
  · rcases hsend : udpSend q e.link with - | -
    · exact Or.inr (Or.inr ⟨rfl, rfl⟩)
    · exact Or.inr (Or.inl ⟨rfl, rfl⟩)
  · exact Or.inl rfl

/-- A send of audio that gets as far as `pbuf_alloc`: the control block has
been connected to the selected server if `SPUDP_CONNECTED` is set, and is used
as it is otherwise. -/
theorem spudpSend_cases (speex : Speex β) (s : Spudp β)
    (id gid id2 : List UInt8) (samples : List Int16) (len : Nat)
    (e : AudioEnv) :
    ((spudpSend speex s id gid id2 samples len e).out = [] ∧
      ∀ n s', (spudpSend speex s id gid id2 samples len e).res =
        some (n, s') → n = 0 ∧ ∃ bits, s' = { s with encBits := bits }) ∨
    ∃ p q bits enc count, s.dt.p = some p ∧
      spudpSend speex s id gid id2 samples len e =
        sendAudio { s with encBits := bits } q enc count len e.toSendEnv ∧
      ((s.dt.isConnected = true ∧ ∃ ip, s.dt.serverAddr = some ip ∧
          q = udpConnect p ip 5198) ∨
        (s.dt.isConnected = false ∧ q = p)) := by
  unfold spudpSend
  rcases buildHeader e.enc id gid id2 with - | ⟨allLen, c, enc⟩
  · exact Or.inl ⟨rfl, nofun⟩
  rcases hp : s.dt.p with - | p
  · refine Or.inl ⟨rfl, fun n s' h => ?_⟩
    obtain ⟨rfl, rfl⟩ := Prod.mk.inj (Option.some.inj h)
    exact ⟨rfl, s.encBits, rfl⟩
  simp only [Traced.ofOption_some, pure_bind]
  rcases encodeLoop speex samples len len 0 s.encBits with - | bits
  · exact Or.inl ⟨rfl, nofun⟩
  simp only [Traced.ofOption_some, pure_bind]
  rcases writeBits speex (speex.insertTerminator bits) c enc e.nbytes with
    - | ⟨nbytes, enc⟩
  · exact Or.inl ⟨rfl, nofun⟩
  simp only [Traced.ofOption_some, pure_bind]
  rcases hc : s.dt.isConnected with - | -
  · exact Or.inr ⟨p, p, _, _, _, rfl, rfl, Or.inr ⟨rfl, rfl⟩⟩
  rcases hs : s.dt.serverAddr with - | ip
  · refine Or.inl ⟨rfl, fun n s' h => ?_⟩
    obtain ⟨rfl, rfl⟩ := Prod.mk.inj (Option.some.inj h)
    exact ⟨rfl, _, rfl⟩
  · exact Or.inr ⟨p, _, _, _, _, rfl, rfl, Or.inl ⟨rfl, ip, rfl, rfl⟩⟩

end Roip
