/-
Roip/Failover.lean

How the servers are probed.

`spudp_control_send` sends a sync packet every 5 s.  As long as no send is
refused the packets are more than 5 s apart and go to the selected server; the
other server is selected exactly when the device is DISCONNECTED or no control
packet has come for 10 s.  Without control packets the two servers therefore
take turns.

The counter of 32 bits is exact here because consecutive calls lie within
`2 ^ 31` ms (`Paced`): the time of the last sync packet, and while a server is
connected that of the last control packet, are never too far behind
(`Tracked`).
-/
import Roip.Connection
import Roip.AudioDest

namespace Roip

variable {β : Type}

/-! ### Statements -/

/-- A call of `spudp_control_send` that sends a sync packet to `ip`. -/
def SyncAt (speex : Speex β) (s₀ : Spudp β) (ops pre : List SpudpOp)
    (t₁ t₂ t₃ : Nat) (t t' : Spudp β) (ip : UInt32) (port : UInt16) : Prop :=
  ∃ e o', CallAt speex s₀ ops pre t₁ t₂ t₃ e o' t t' ∧
    ∃ payload, .sent .control ip port payload ∈ o'

/-- Sync packets are more than 5 s apart. -/
def SyncsApart (speex : Speex β) (s₀ : Spudp β) (ops : List SpudpOp) : Prop :=
  ∀ pre t₁ t₂ t₃ t t' ip port pre' t₁' t₂' t₃' u u' ip' port',
    SyncAt speex s₀ ops pre t₁ t₂ t₃ t t' ip port →
    SyncAt speex s₀ ops pre' t₁' t₂' t₃' u u' ip' port' →
    pre.length < pre'.length → t₃ + 5000 < t₁'

/-- A sync packet goes to the server selected by the call. -/
def SyncsSelected (speex : Speex β) (s₀ : Spudp β) (ops : List SpudpOp) :
    Prop :=
  ∀ pre t₁ t₂ t₃ t t' ip port,
    SyncAt speex s₀ ops pre t₁ t₂ t₃ t t' ip port →
    port = 5199 ∧ t'.dt.serverAddr = some ip

/-- A sync packet goes to another server than the one selected before exactly
if the device was DISCONNECTED, or the last control packet (or `spudp_init`,
at time `now`) was more than 10 s ago. -/
def SwitchesIffSilent (speex : Speex β) (s₀ : Spudp β) (now : Nat)
    (ops : List SpudpOp) : Prop :=
  ∀ pre t₁ t₂ t₃ t t' ip port,
    SyncAt speex s₀ ops pre t₁ t₂ t₃ t t' ip port →
    (t.dt.serverAddr ≠ some ip ↔
      t.dt.isConnected = false ∨ 10000 < t₂ - lastHeard now pre)

/-- Every due call sends a sync packet. -/
def SyncsDue (speex : Speex β) (s₀ : Spudp β) (ops : List SpudpOp) : Prop :=
  ∀ pre t₁ t₂ t₃ e o t t', CallAt speex s₀ ops pre t₁ t₂ t₃ e o t t' →
    t.due (clk t₁) →
    ∃ ip port, SyncAt speex s₀ ops pre t₁ t₂ t₃ t t' ip port

/-- Without control packets, and once `SPUDP_CONNECTED` is clear, consecutive
sync packets go to the two servers in turn. -/
def SyncsAlternate (speex : Speex β) (s₀ : Spudp β) (ops : List SpudpOp) :
    Prop :=
  ∀ pre t₁ t₂ t₃ t t' ip port pre' t₁' t₂' t₃' u u' ip' port',
    SyncAt speex s₀ ops pre t₁ t₂ t₃ t t' ip port →
    t'.dt.isConnected = false →
    SyncAt speex s₀ ops pre' t₁' t₂' t₃' u u' ip' port' →
    pre.length < pre'.length → NoInput (pre'.drop pre.length) →
    (∀ pre'' k₁ k₂ k₃ v v' ip port, pre.length < pre''.length →
      pre''.length < pre'.length →
      ¬ SyncAt speex s₀ ops pre'' k₁ k₂ k₃ v v' ip port) →
    (ip = s₀.dt.server1 ∧ ip' = s₀.dt.server2) ∨
      (ip = s₀.dt.server2 ∧ ip' = s₀.dt.server1)

/-- No send on the control channel is refused. -/
def NoRefusal (speex : Speex β) (s₀ : Spudp β) (ops : List SpudpOp) : Prop :=
  ∀ a ∈ (run (spudpStep speex) s₀ ops).out, ∀ ip port,
    a ≠ .refused .control ip port

/-! ### One sync packet -/

section Sync

variable {speex : Speex β} {s₀ : Spudp β} {ops pre : List SpudpOp}
  {t₁ t₂ t₃ : Nat} {t t' : Spudp β}

/-- What a sync packet says of its call. -/
theorem SyncAt.spec {ip : UInt32} {port : UInt16}
    (h : SyncAt speex s₀ ops pre t₁ t₂ t₃ t t' ip port) :
    port = 5199 ∧ t.due (clk t₁) ∧
      t'.dt = (controlTransition t (clk t₂)).dt ∧
      t'.dt.serverAddr = some ip ∧ t'.tmCtlpacketSent = clk t₃ := by
  obtain ⟨e, o', hcall, payload, hsent⟩ := h
  rcases spudpControlSend_cases hcall.step with ⟨-, rfl, -⟩ |
    ⟨hdue, hdt, -, -, ⟨ip', hsel, -, -, rfl, htime⟩ |
      ⟨-, ⟨-, rfl⟩ | ⟨ip', -, -, rfl⟩⟩⟩
  · cases hsent
  · obtain ⟨rfl, rfl, -⟩ : ip = ip' ∧ port = 5199 ∧ payload = syncPayload := by
      simpa using hsent
    exact ⟨rfl, hdue, hdt, hsel, htime⟩
  · cases hsent
  · simp at hsent

/-- Without refusals a due call sends a sync packet. -/
theorem CallAt.sync {e : SendEnv} {o' : List NetOp}
    (h : CallAt speex s₀ ops pre t₁ t₂ t₃ e o' t t')
    (hno : NoRefusal speex s₀ ops) (hv : ValidSt t.dt.st)
    (hdue : t.due (clk t₁)) :
    ∃ ip, SyncAt speex s₀ ops pre t₁ t₂ t₃ t t' ip 5199 := by
  rcases spudpControlSend_cases h.step with ⟨hnot, -⟩ |
    ⟨-, hdt, -, -, ⟨ip, -, -, -, rfl, -⟩ |
      ⟨-, ⟨hnone, -⟩ | ⟨ip, -, -, rfl⟩⟩⟩
  · exact absurd hdue hnot
  · exact ⟨ip, e, _, h, syncPayload, by simp⟩
  · -- a server is always selected
    exfalso
    have hv' : ValidSt t'.dt.st := by
      rw [hdt]
      rcases controlTransition_cases hv (clk t₂) with
        ⟨-, -, hsame⟩ | ⟨-, -, hv', -⟩
      · exact hsame ▸ hv
      · exact hv'
    rcases hv'.serverAddr with h | h <;> rw [hnone] at h <;> cases h
  · exfalso
    obtain ⟨post, hops⟩ := h.split
    obtain ⟨o, hrun⟩ := h.before
    have hf : Feeds (spudpStep speex) s₀ ops o t (.controlSend t₁ t₂ t₃ e) :=
      ⟨pre, post, hops, hrun⟩
    refine hno _ (hf.mem_out ?_) ip 5199 rfl
    rw [h.step]
    simp

end Sync

/-! ### The timers -/

/-- What is known after the calls `pre`, if `spudp_init` read the counter at
`now₀` and `now`. -/
structure Tracked (s₀ : Spudp β) (now₀ now : Nat) (pre : List SpudpOp)
    (s : Spudp β) : Prop where
  valid : ValidSt s.dt.st
  server1 : s.dt.server1 = s₀.dt.server1
  server2 : s.dt.server2 = s₀.dt.server2
  receives : s.dt.isConnected = true → s.receives = true
  sent : s.receives = true → ∃ at', s.tmCtlpacketSent = clk at' ∧
    at' ≤ endTime now pre ∧ lastCall now₀ pre ≤ at' + 5000 ∧
    (s.dt.isConnected = true →
      s.tmCtlpacketReceived = clk (lastHeard now pre) ∧
      at' ≤ lastHeard now pre + 2 ^ 30 + 10000 ∧
      lastCall now₀ pre ≤ lastHeard now pre + 2 ^ 30 + 15000)

theorem tracked_init {speex : Speex β} {s s₀ : Spudp β}
    {server1 server2 : Option UInt32} {e : InitEnv} {now₀ now : Nat}
    (hs : s.pctl = none)
    (h : spudpInit speex s server1 server2 e = some s₀)
    (he : e.now1 = clk now₀) (hnow : now₀ ≤ now) :
    Tracked s₀ now₀ now [] s₀ := by
  obtain ⟨hst, htime⟩ := spudpInit_cases hs h
  have hoff : ¬ s₀.dt.isConnected = true := by
    rw [SpudpData.isConnected, hst]
    decide
  exact ⟨Or.inl hst, rfl, rfl, fun hc => absurd hc hoff, fun hr =>
    ⟨now₀, (htime hr).1.trans he, hnow, Nat.le_add_right _ _,
      fun hc => absurd hc hoff⟩⟩

section Step

variable {s₀ s s' : Spudp β} {now₀ now : Nat} {pre post : List SpudpOp}

/-- The reading of the counter at a call, and those it is compared with. -/
theorem Tracked.call {t₁ t₂ t₃ : Nat} {e : SendEnv}
    (hchron : Chronological now (pre ++ .controlSend t₁ t₂ t₃ e :: post))
    (hpaced : Paced (2 ^ 31) now₀ (pre ++ .controlSend t₁ t₂ t₃ e :: post)) :
    endTime now pre ≤ t₁ ∧ t₁ ≤ t₂ ∧ t₂ ≤ t₃ ∧
      t₃ < lastCall now₀ pre + 2 ^ 31 ∧ t₃ < t₁ + 2 ^ 30 ∧
      lastHeard now pre ≤ endTime now pre := by
  rw [chronological_append] at hchron
  rw [paced_append] at hpaced
  exact ⟨hchron.2.1.1, hchron.2.1.2.1, hchron.2.1.2.2, hpaced.2.1,
    hpaced.2.2.1, lastHeard_le_endTime (Nat.le_refl now) hchron.1⟩

/-- **The test of silence is exact.** -/
theorem Tracked.silent_iff {t₁ t₂ t₃ : Nat} {e : SendEnv}
    (h : Tracked s₀ now₀ now pre s)
    (hchron : Chronological now (pre ++ .controlSend t₁ t₂ t₃ e :: post))
    (hpaced : Paced (2 ^ 31) now₀ (pre ++ .controlSend t₁ t₂ t₃ e :: post))
    (hconn : s.dt.isConnected = true) :
    10000 < clk t₂ - s.tmCtlpacketReceived ↔
      10000 < t₂ - lastHeard now pre := by
  obtain ⟨at', -, -, -, htimes⟩ := h.sent (h.receives hconn)
  obtain ⟨htime, -, hcall⟩ := htimes hconn
  have := Tracked.call hchron hpaced
  rw [htime]
  exact lt_clk_sub_iff (by omega) (by omega)

/-- A due call that takes the time. -/
theorem tracked_check {t₁ t₂ t₃ : Nat} {e : SendEnv} {o : List NetOp}
    (h : Tracked s₀ now₀ now pre s)
    (hchron : Chronological now (pre ++ .controlSend t₁ t₂ t₃ e :: post))
    (hpaced : Paced (2 ^ 31) now₀ (pre ++ .controlSend t₁ t₂ t₃ e :: post))
    (hstep : spudpControlSend s ⟨clk t₁, clk t₂, clk t₃⟩ e = ⟨o, some s'⟩)
    (hdue : s.due (clk t₁)) (htook : s'.tmCtlpacketSent = clk t₃) :
    Tracked s₀ now₀ now (pre ++ [.controlSend t₁ t₂ t₃ e]) s' := by
  obtain ⟨hend, h12, h23, -, hshort, -⟩ := Tracked.call hchron hpaced
  rcases spudpControlSend_cases hstep with ⟨hnot, -⟩ |
    ⟨-, hdt, hrecv, htime, -⟩
  · exact absurd hdue hnot
  rcases controlTransition_cases h.valid (clk t₂) with
    ⟨hconn, hnear, hsame⟩ | ⟨-, hoff, hv, h1, h2, -⟩
  · -- the server is kept, so it has been heard lately
    rw [hsame] at hdt
    rw [h.silent_iff hchron hpaced hconn] at hnear
    obtain ⟨at', -, -, -, htimes⟩ := h.sent (h.receives hconn)
    refine ⟨hdt ▸ h.valid, by rw [hdt, h.server1], by rw [hdt, h.server2],
      fun hc => hrecv.trans (h.receives (hdt ▸ hc)), fun hr => ⟨t₃, htook, ?_,
        ?_, fun hc => ?_⟩⟩
    · rw [endTime_concat]
      exact Nat.le_refl _
    · rw [lastCall_concat]
      dsimp only
      omega
    · rw [lastHeard_concat, lastCall_concat]
      refine ⟨htime.trans (htimes hconn).1, ?_, ?_⟩ <;> dsimp only <;> omega
  · have hoff' : ¬ s'.dt.isConnected = true := by
      rw [hdt, hoff]
      decide
    refine ⟨hdt ▸ hv, by rw [hdt, h1, h.server1], by rw [hdt, h2, h.server2],
      fun hc => absurd hc hoff', fun hr => ⟨t₃, htook, ?_, ?_,
        fun hc => absurd hc hoff'⟩⟩
    · rw [endTime_concat]
      exact Nat.le_refl _
    · rw [lastCall_concat]
      dsimp only
      omega

/-- A control packet. -/
theorem tracked_input {addr : UInt32} {t : Nat} {o : List NetOp}
    (h : Tracked s₀ now₀ now pre s) (hnow : now₀ ≤ now)
    (hchron : Chronological now (pre ++ .input addr t :: post))
    (hrecv : s.receives = true)
    (hin : handleControlInput s addr (clk t) = ⟨o, some s'⟩) :
    Tracked s₀ now₀ now (pre ++ [.input addr t]) s' := by
  obtain ⟨htime, hsent, hrecv', h1, h2, hst⟩ := handleControlInput_cases hin
  rw [chronological_append] at hchron
  have hend : endTime now pre ≤ t := hchron.2.1
  have hcall := lastCall_le_endTime hnow hchron.1
  obtain ⟨at', hat, hle, hpace, -⟩ := h.sent hrecv
  refine ⟨?_, by rw [h1, h.server1], by rw [h2, h.server2],
    fun _ => hrecv'.trans hrecv, fun _ => ⟨at', hsent.trans hat, ?_, ?_,
      fun _ => ?_⟩⟩
  · rcases hst with ⟨-, -, hv, -⟩ | ⟨-, -, hst⟩
    · exact hv
    · exact hst ▸ h.valid
  · rw [endTime_concat]
    exact Nat.le_trans hle hend
  · rw [lastCall_concat]
    exact hpace
  · rw [lastHeard_concat, lastCall_concat]
    exact ⟨htime, by dsimp only; omega, by dsimp only; omega⟩

/-- **One call.** -/
theorem tracked_step {speex : Speex β} {op : SpudpOp} {o : List NetOp}
    (h : Tracked s₀ now₀ now pre s) (hnow : now₀ ≤ now)
    (hchron : Chronological now (pre ++ op :: post))
    (hpaced : Paced (2 ^ 31) now₀ (pre ++ op :: post))
    (htook : ∀ t₁ t₂ t₃ e, op = .controlSend t₁ t₂ t₃ e → s.due (clk t₁) →
      s'.tmCtlpacketSent = clk t₃)
    (hstep : spudpStep speex s op = ⟨o, some s'⟩) :
    Tracked s₀ now₀ now (pre ++ [op]) s' := by
  rcases spudpStep_cases hstep with ⟨hframe, hinput, hcall⟩ |
    ⟨addr, t, rfl, hrecv, hin⟩ | ⟨t₁, t₂, t₃, e, rfl, hdue, hctl⟩
  · -- neither an input from the server nor a check: only time passes
    refine ⟨hframe.st ▸ h.valid, by rw [hframe.server1, h.server1],
      by rw [hframe.server2, h.server2], fun hc => ?_, fun hr => ?_⟩
    · rw [hframe.receives]
      exact h.receives (hframe.isConnected ▸ hc)
    · rw [hframe.receives] at hr
      obtain ⟨at', hat, hle, hpace, htimes⟩ := h.sent hr
      rw [hframe.isConnected, hframe.received]
      refine ⟨at', hframe.sent.trans hat, ?_⟩
      cases op with
      | input addr t =>
        rw [hinput addr t rfl] at hr
        cases hr
      | controlSend t₁ t₂ t₃ e =>
        -- a call before 5 s are over: no check is due, so the last one is kept
        obtain ⟨hend, h12, h23, hspan, -⟩ := Tracked.call hchron hpaced
        have hnot := (hcall t₁ t₂ t₃ e rfl).1
        rw [Spudp.due, hat, lt_clk_sub_iff (by omega) (by omega)] at hnot
        replace hnot : ¬ 5000 < t₁ - at' := hnot
        rw [endTime_concat, lastCall_concat, lastHeard_concat]
        simp only [SpudpOp.tick]
        refine ⟨by omega, by omega, fun hc => ?_⟩
        obtain ⟨htime, hsent, -⟩ := htimes hc
        exact ⟨htime, hsent, by omega⟩
      | stringSend | send =>
        rw [endTime_concat, lastCall_concat, lastHeard_concat]
        exact ⟨hle, hpace, htimes⟩
  · exact tracked_input h hnow hchron hrecv hin
  · exact tracked_check h hchron hpaced hctl hdue
      (htook t₁ t₂ t₃ e rfl hdue)

end Step

/-! ### Whole runs -/

section Run

variable {speex : Speex β} {s s₀ : Spudp β} {now₀ now : Nat}
  {ops pre : List SpudpOp}

/-- Every state before a call is tracked. -/
theorem tracked_run (hnow : now₀ ≤ now) (h0 : Tracked s₀ now₀ now [] s₀)
    (hchron : Chronological now ops) (hpaced : Paced (2 ^ 31) now₀ ops)
    (hno : NoRefusal speex s₀ ops) {post : List SpudpOp} {o : List NetOp}
    {t : Spudp β} (hops : ops = pre ++ post)
    (hrun : run (spudpStep speex) s₀ pre = ⟨o, some t⟩) :
    Tracked s₀ now₀ now pre t := by
  refine run_inv (I := fun pre _ t => Tracked s₀ now₀ now pre t) h0 ?_ hops
    hrun
  intro pre op post o t o' t' hops hrun h hstep
  refine tracked_step h hnow (hops ▸ hchron) (hops ▸ hpaced) ?_ hstep
  rintro t₁ t₂ t₃ e rfl hdue
  obtain ⟨ip, hsync⟩ := CallAt.sync ⟨⟨post, hops⟩, ⟨o, hrun⟩, hstep⟩ hno
    h.valid hdue
  exact hsync.spec.2.2.2.2

theorem CallAt.tracked (hnow : now₀ ≤ now)
    (h0 : Tracked s₀ now₀ now [] s₀) (hchron : Chronological now ops)
    (hpaced : Paced (2 ^ 31) now₀ ops) (hno : NoRefusal speex s₀ ops)
    {t₁ t₂ t₃ : Nat} {e : SendEnv} {o' : List NetOp} {t t' : Spudp β}
    (h : CallAt speex s₀ ops pre t₁ t₂ t₃ e o' t t') :
    Tracked s₀ now₀ now pre t := by
  obtain ⟨post, hops⟩ := h.split
  obtain ⟨o, hrun⟩ := h.before
  exact tracked_run hnow h0 hchron hpaced hno hops hrun

theorem syncs_apart (hchron : Chronological now ops) :
    SyncsApart speex s₀ ops := by
  intro pre t₁ t₂ t₃ t t' ip port pre' t₁' t₂' t₃' u u' ip' port' h h' hlt
  obtain ⟨-, -, -, -, htime⟩ := h.spec
  obtain ⟨-, hdue', -⟩ := h'.spec
  obtain ⟨e, o, hcall, -⟩ := h
  obtain ⟨e', o', hcall', -⟩ := h'
  obtain ⟨mid, post, om, rfl, hops, hmid⟩ := hcall.between hcall' hlt
  rw [hops, chronological_append] at hchron
  obtain ⟨m₁, k₁, k₂, k₃, ek, m₂, o₁, o₂, v, v', -, -, -, hdue, hsent, hk,
    hkt⟩ := first_due hchron.2.2 hmid hdue' hcall'.step
  replace hk : t₃ ≤ k₁ := hk
  rw [Spudp.due, hsent, htime] at hdue
  have : 5000 < k₁ - t₃ := lt_of_lt_clk_sub hk hdue
  omega

theorem syncs_selected : SyncsSelected speex s₀ ops := by
  intro pre t₁ t₂ t₃ t t' ip port h
  obtain ⟨hport, -, -, hsel, -⟩ := h.spec
  exact ⟨hport, hsel⟩

theorem switches_iff_silent (hne : s₀.dt.server1 ≠ s₀.dt.server2)
    (hnow : now₀ ≤ now) (h0 : Tracked s₀ now₀ now [] s₀)
    (hchron : Chronological now ops) (hpaced : Paced (2 ^ 31) now₀ ops)
    (hno : NoRefusal speex s₀ ops) :
    SwitchesIffSilent speex s₀ now ops := by
  intro pre t₁ t₂ t₃ t t' ip port h
  obtain ⟨-, hdue, hdt, hsel, -⟩ := h.spec
  obtain ⟨e, o', hcall, -⟩ := h
  have htr := hcall.tracked hnow h0 hchron hpaced hno
  obtain ⟨post, hops⟩ := hcall.split
  rw [hops] at hchron hpaced
  rcases controlTransition_cases htr.valid (clk t₂) with
    ⟨hconn, hnear, hsame⟩ | ⟨hfar, -, -, -, -, hother⟩
  · -- the server is kept
    rw [htr.silent_iff hchron hpaced hconn] at hnear
    rw [hdt, hsame] at hsel
    simp [hsel, hconn, hnear]
  · -- the other server is taken
    refine ⟨fun _ => ?_, fun _ => ?_⟩
    · rcases hc : t.dt.isConnected with _ | _
      · exact Or.inl rfl
      · exact Or.inr ((htr.silent_iff hchron hpaced hc).mp (hfar hc))
    · rw [hdt] at hsel
      rw [htr.server1, htr.server2] at hother
      rcases hother with ⟨ht, ht'⟩ | ⟨ht, ht'⟩ <;>
        rw [ht, ← hsel, ht', ne_eq, Option.some.injEq]
      · exact hne
      · exact hne.symm

/-- Calls that are not due, and no control packet: the state stays. -/
theorem state_stays {mid : List SpudpOp} {t u : Spudp β} {o : List NetOp}
    (hin : NoInput mid) (hrun : run (spudpStep speex) t mid = ⟨o, some u⟩)
    (hnot : ∀ o v t₁ t₂ t₃ e v' o',
      Feeds (spudpStep speex) t mid o v (.controlSend t₁ t₂ t₃ e) →
      spudpStep speex v (.controlSend t₁ t₂ t₃ e) = ⟨o', some v'⟩ →
      ¬ v.due (clk t₁)) :
    u.dt.isConnected = t.dt.isConnected ∧
      u.dt.serverAddr = t.dt.serverAddr := by
  refine visits_inv (I := fun _ u => u.dt.isConnected = t.dt.isConnected ∧
    u.dt.serverAddr = t.dt.serverAddr) ⟨rfl, rfl⟩ ?_ (Visits.end hrun)
  intro o v op o' v' hf hv hstep
  rcases spudpStep_cases hstep with ⟨hframe, -⟩ | ⟨addr, at', rfl, -⟩ |
    ⟨t₁, t₂, t₃, e, rfl, hdue, hctl⟩
  · exact ⟨hframe.isConnected.trans hv.1, hframe.serverAddr.trans hv.2⟩
  · obtain ⟨m₁, m₂, hmid, -⟩ := hf
    exact absurd rfl (hin _ (by simp [hmid]) addr at')
  · exact absurd hdue (hnot o v t₁ t₂ t₃ e v' o' hf hctl)

theorem syncs_due (hnow : now₀ ≤ now) (h0 : Tracked s₀ now₀ now [] s₀)
    (hchron : Chronological now ops) (hpaced : Paced (2 ^ 31) now₀ ops)
    (hno : NoRefusal speex s₀ ops) : SyncsDue speex s₀ ops := by
  intro pre t₁ t₂ t₃ e o t t' hcall hdue
  have htr := hcall.tracked hnow h0 hchron hpaced hno
  obtain ⟨ip, hsync⟩ := hcall.sync hno htr.valid hdue
  exact ⟨ip, 5199, hsync⟩

theorem syncs_alternate (hnow : now₀ ≤ now)
    (h0 : Tracked s₀ now₀ now [] s₀) (hchron : Chronological now ops)
    (hpaced : Paced (2 ^ 31) now₀ ops) (hno : NoRefusal speex s₀ ops) :
    SyncsAlternate speex s₀ ops := by
  intro pre t₁ t₂ t₃ t t' ip port pre' t₁' t₂' t₃' u u' ip' port' h hoff h'
    hlt hin hnone
  obtain ⟨-, -, -, hsel, -⟩ := h.spec
  obtain ⟨-, -, hdt', hsel', -⟩ := h'.spec
  obtain ⟨e, o, hcall, -⟩ := h
  obtain ⟨e', o', hcall', -⟩ := h'
  have htr := hcall'.tracked hnow h0 hchron hpaced hno
  obtain ⟨mid, post, om, rfl, hops, hmid⟩ := hcall.between hcall' hlt
  rw [List.drop_left] at hin
  -- no call in between is due, as it would send a sync packet
  have hstays := state_stays (fun op hop => hin op (List.mem_cons_of_mem _ hop))
    hmid (by
      rintro o₁ v k₁ k₂ k₃ ek v' o₂ ⟨m₁, m₂, rfl, hv⟩ hstep hdue
      obtain ⟨ob, hb⟩ := hcall.before
      have hmidcall : CallAt speex s₀ ops
          (pre ++ .controlSend t₁ t₂ t₃ e :: m₁) k₁ k₂ k₃ ek o₂ v v' := by
        refine ⟨⟨m₂ ++ .controlSend t₁' t₂' t₃' e' :: post, ?_⟩,
          ⟨ob ++ (o ++ o₁), ?_⟩, hstep⟩
        · simp [hops]
        · rw [run_append, hb, Traced.mk_bind, run_cons, hcall.step,
            Traced.mk_bind, hv]
      obtain ⟨ip₂, hsync⟩ := hmidcall.sync hno
        (hmidcall.tracked hnow h0 hchron hpaced hno).valid hdue
      exact hnone _ k₁ k₂ k₃ v v' ip₂ 5199 (by simp) (by simp) hsync)
  rcases controlTransition_cases htr.valid (clk t₂') with
    ⟨hconn, -, -⟩ | ⟨-, -, -, -, -, hother⟩
  · rw [hstays.1, hoff] at hconn
    cases hconn
  · rw [hdt'] at hsel'
    rw [hstays.2, hsel, hsel', htr.server1, htr.server2] at hother
    simpa using hother

end Run

/-- **Failover coverage.**  In a run that starts with `spudp_init`, with two
distinct servers, in which no send is refused and consecutive calls of
`spudp_control_send` lie within `2 ^ 31` ms: sync packets are more than 5 s
apart, they go to the selected server, the server changes exactly when the
device is DISCONNECTED or has heard nothing for 10 s, and without control
packets the servers take turns; and no call that is due goes without one. -/
theorem failover_coverage {speex : Speex β} {s s₀ : Spudp β}
    {server1 server2 : Option UInt32} {e₀ : InitEnv} {now₀ now : Nat}
    {ops : List SpudpOp} (hs : s.pctl = none)
    (hinit : spudpInit speex s server1 server2 e₀ = some s₀)
    (he : e₀.now1 = clk now₀) (hnow : now₀ ≤ now)
    (hne : s₀.dt.server1 ≠ s₀.dt.server2) (hchron : Chronological now ops)
    (hpaced : Paced (2 ^ 31) now₀ ops) (hno : NoRefusal speex s₀ ops) :
    SyncsApart speex s₀ ops ∧ SyncsSelected speex s₀ ops ∧
      SwitchesIffSilent speex s₀ now ops ∧ SyncsAlternate speex s₀ ops ∧
      SyncsDue speex s₀ ops := by
  have h0 := tracked_init hs hinit he hnow
  exact ⟨syncs_apart hchron, syncs_selected,
    switches_iff_silent hne hnow h0 hchron hpaced hno,
    syncs_alternate hnow h0 hchron hpaced hno,
    syncs_due hnow h0 hchron hpaced hno⟩

/-- Two probes, an answer of the first server, and its last check. -/
theorem failover_coverage_answered :
    let ops : List SpudpOp := [.controlSend 5001 5001 5001 ⟨true, true⟩,
      .controlSend 10002 10002 10003 ⟨true, true⟩, .input 10 10500,
      .controlSend 20600 20601 20601 ⟨true, true⟩]
    SyncsApart countingSpeex spudpStart ops ∧
      SyncsSelected countingSpeex spudpStart ops ∧
      SwitchesIffSilent countingSpeex spudpStart 0 ops ∧
      SyncsAlternate countingSpeex spudpStart ops ∧
      SyncsDue countingSpeex spudpStart ops := by
  intro ops
  have hout : (run (spudpStep countingSpeex) spudpStart ops).out =
      [20, 10, 0, 20].flatMap fun ip =>
        if ip = 0 then [.pbufFree .control]
        else [.pbufAlloc .control 32, .sent .control ip 5199 syncPayload,
          .pbufFree .control] := by
    decide +kernel
  refine failover_coverage rfl spudpStart_init rfl
    (Nat.le_refl 0) (by decide)
    (by simp [ops, Chronological, SpudpOp.InOrder, SpudpOp.tick])
    (by simp [ops, Paced]) ?_
  intro a ha ip port
  rw [hout] at ha
  rintro rfl
  simp at ha

end Roip
