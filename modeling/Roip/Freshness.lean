/-
Roip/Freshness.lean

How fresh the connected state is.

When the periodic check leaves `SPUDP_CONNECTED` set, the selected server
should have been heard within the last 10 s.  `handleControlInput` refreshes
the timer at every control packet, whoever has sent it, so packets of other
hosts keep a silent server connected; and the counter of 32 bits mistakes a
silence of `2 ^ 32` ms for a fresh packet.  `checks_fresh` says that nothing
else goes wrong.
-/
import Roip.Connection
import Roip.AudioDest

namespace Roip

variable {β : Type}

/-- A periodic check that leaves `SPUDP_CONNECTED` set has been preceded, by at
most 10 s, by a control packet of the selected server. -/
def FreshChecks (speex : Speex β) (s₀ : Spudp β) (ops : List SpudpOp) :
    Prop :=
  ∀ pre t₁ t₂ t₃ e post o t o' t',
    ops = pre ++ .controlSend t₁ t₂ t₃ e :: post →
    run (spudpStep speex) s₀ pre = ⟨o, some t⟩ → t.due (clk t₁) →
    spudpStep speex t (.controlSend t₁ t₂ t₃ e) = ⟨o', some t'⟩ →
    t'.dt.isConnected = true →
    ∃ addr p, t'.dt.serverAddr = some addr ∧ .input addr p ∈ pre ∧
      t₂ ≤ p + 10000

/-- While a server is connected, control packets are received and the timer
shows the last packet of the selected server. -/
structure Heard (now : Nat) (pre : List SpudpOp) (s : Spudp β) : Prop where
  valid : ValidSt s.dt.st
  receives : s.dt.isConnected = true → s.receives = true
  heard : s.dt.isConnected = true → ∃ addr, s.dt.serverAddr = some addr ∧
    .input addr (lastHeard now pre) ∈ pre ∧
    s.tmCtlpacketReceived = clk (lastHeard now pre)

theorem heard_init {speex : Speex β} {s s₀ : Spudp β}
    {server1 server2 : Option UInt32} {e : InitEnv} (hs : s.pctl = none)
    (h : spudpInit speex s server1 server2 e = some s₀) (now : Nat) :
    Heard now [] s₀ := by
  obtain ⟨hst, -⟩ := spudpInit_cases hs h
  have hoff : ¬ s₀.dt.isConnected = true := by
    rw [SpudpData.isConnected, hst]
    decide
  exact ⟨Or.inl hst, fun hc => absurd hc hoff, fun hc => absurd hc hoff⟩

/-- A call that is no control packet. -/
theorem Heard.of_same {now : Nat} {pre : List SpudpOp} {s s' : Spudp β}
    {op : SpudpOp} (h : Heard now pre s) (hv : ValidSt s'.dt.st)
    (hrecv : s'.receives = s.receives)
    (hc : s'.dt.isConnected = true → s.dt.isConnected = true ∧
      s'.dt.serverAddr = s.dt.serverAddr ∧
      s'.tmCtlpacketReceived = s.tmCtlpacketReceived ∧
      lastHeard now (pre ++ [op]) = lastHeard now pre) :
    Heard now (pre ++ [op]) s' where
  valid := hv
  receives hconn := hrecv.trans (h.receives (hc hconn).1)
  heard hconn := by
    obtain ⟨hconn, hsel, hrecv, hop⟩ := hc hconn
    obtain ⟨addr, haddr, hmem, htime⟩ := h.heard hconn
    rw [hop]
    exact ⟨addr, hsel.trans haddr, List.mem_append_left _ hmem,
      hrecv.trans htime⟩

/-- One call.  A packet of another host would break the invariant while a
server is connected. -/
theorem heard_step {speex : Speex β} {now : Nat} {pre : List SpudpOp}
    {s s' : Spudp β} {op : SpudpOp} {o : List NetOp} (h : Heard now pre s)
    (hforeign : ∀ addr t, op = .input addr t → s.dt.isConnected = true →
      addr = s.dt.server1 ∨ addr = s.dt.server2)
    (hstep : spudpStep speex s op = ⟨o, some s'⟩) :
    Heard now (pre ++ [op]) s' := by
  rcases spudpStep_cases hstep with ⟨hframe, hinput, -⟩ |
    ⟨addr, t, rfl, hon, hin⟩ | ⟨t₁, t₂, t₃, e, rfl, -, hctl⟩
  · refine h.of_same (hframe.st ▸ h.valid) hframe.receives fun hc => ?_
    rw [hframe.isConnected] at hc
    refine ⟨hc, hframe.serverAddr, hframe.received, ?_⟩
    cases op with
    | input addr t =>
      have hrecv := h.receives hc
      rw [hinput addr t rfl] at hrecv
      cases hrecv
    | controlSend | stringSend | send => exact lastHeard_concat _ _ _
  · obtain ⟨htime, -, hrecv, -, -, ⟨-, -, hv, hsel⟩ | ⟨h1, h2, hst⟩⟩ :=
      handleControlInput_cases hin
    · refine ⟨hv, fun _ => hrecv.trans hon, fun _ => ⟨addr, hsel, ?_, ?_⟩⟩
      · rw [lastHeard_concat]
        exact List.mem_append_right _ (List.mem_singleton.mpr rfl)
      · rw [lastHeard_concat]
        exact htime
    · -- another host: no server is connected
      have hoff : ¬ s'.dt.isConnected = true := by
        rw [SpudpData.isConnected, hst]
        intro hconn
        rcases hforeign addr t rfl hconn with h' | h'
        · exact h1 h'
        · exact h2 h'
      exact ⟨hst ▸ h.valid, fun hc => absurd hc hoff,
        fun hc => absurd hc hoff⟩
  · rcases spudpControlSend_cases hctl with ⟨-, -, rfl⟩ |
      ⟨-, hdt, hrecv, htime, -⟩
    · exact h.of_same h.valid rfl
        fun hc => ⟨hc, rfl, rfl, lastHeard_concat _ _ _⟩
    · rcases controlTransition_cases h.valid (clk t₂) with
        ⟨hconn, -, hsame⟩ | ⟨-, hoff, hv, -⟩
      · rw [hsame] at hdt
        refine h.of_same (hdt ▸ h.valid) hrecv fun hc => ?_
        exact ⟨hconn, by rw [hdt], htime, lastHeard_concat _ _ _⟩
      · refine h.of_same (hdt ▸ hv) hrecv fun hc => ?_
        rw [hdt, hoff] at hc
        cases hc

/-- **Freshness.**  If no other host sends a control packet while a server is
connected, and no periodic check of a connected server comes a multiple of
`2 ^ 32` ms and at most 10 s after the last control packet, every check that
keeps the server connected is fresh. -/
theorem checks_fresh {speex : Speex β} {s s₀ : Spudp β}
    {server1 server2 : Option UInt32} {e₀ : InitEnv} {now : Nat}
    {ops : List SpudpOp} (hs : s.pctl = none)
    (hinit : spudpInit speex s server1 server2 e₀ = some s₀)
    (hchron : Chronological now ops)
    (hforeign : ∀ o t addr at',
      Feeds (spudpStep speex) s₀ ops o t (.input addr at') →
      t.dt.isConnected = true → addr = t.dt.server1 ∨ addr = t.dt.server2)
    (hwrap : ∀ pre t₁ t₂ t₃ e post o t,
      ops = pre ++ .controlSend t₁ t₂ t₃ e :: post →
      run (spudpStep speex) s₀ pre = ⟨o, some t⟩ → t.due (clk t₁) →
      t.dt.isConnected = true →
      t₂ - lastHeard now pre < 2 ^ 32 ∨
        10000 < (t₂ - lastHeard now pre) % 2 ^ 32) :
    FreshChecks speex s₀ ops := by
  intro pre t₁ t₂ t₃ e post o t o' t' hops hrun hdue hstep hconn'
  have h : Heard now pre t := by
    refine run_inv (I := fun pre _ t => Heard now pre t)
      (heard_init hs hinit now) ?_ hops hrun
    intro pre op post o t o' t' hops hrun h hstep
    refine heard_step h (fun addr at' hop hconn => ?_) hstep
    subst hop
    exact hforeign o t addr at' ⟨pre, post, hops, hrun⟩ hconn
  rcases spudpControlSend_cases hstep with ⟨hnot, -⟩ | ⟨-, hdt, -, -, -⟩
  · exact absurd hdue hnot
  rcases controlTransition_cases h.valid (clk t₂) with
    ⟨hconn, hnear, hsame⟩ | ⟨-, hoff, -⟩
  swap
  · rw [hdt, hoff] at hconn'
    cases hconn'
  obtain ⟨addr, haddr, hmem, htime⟩ := h.heard hconn
  refine ⟨addr, _, by rw [hdt, hsame, haddr], hmem, ?_⟩
  -- the counter says at most 10 s, and it has not come round
  have hle : lastHeard now pre ≤ t₂ := by
    rw [hops, chronological_append] at hchron
    have := lastHeard_le_endTime (Nat.le_refl now) hchron.1
    have := hchron.2.1.1
    have := hchron.2.1.2.1
    omega
  rw [htime, UInt32.lt_iff_toNat_lt, clk_sub hle] at hnear
  have hmod : ¬ 10000 < (t₂ - lastHeard now pre) % 2 ^ 32 := hnear
  rcases hwrap pre t₁ t₂ t₃ e post o t hops hrun hdue hconn with h32 | hfar
  · rw [Nat.mod_eq_of_lt h32] at hmod
    omega
  · exact absurd hfar hmod

/-- An answer of the first server, and a check five seconds later. -/
theorem checks_fresh_answered : FreshChecks countingSpeex spudpStart
    [.input 10 1, .controlSend 5001 5001 5001 ⟨true, true⟩] := by
  have hchron : Chronological 0
      [.input 10 1, .controlSend 5001 5001 5001 ⟨true, true⟩] := by
    simp [Chronological, SpudpOp.InOrder, SpudpOp.tick]
  refine checks_fresh rfl spudpStart_init hchron ?_ ?_
  · intro o t addr at' hf hconn
    rcases feeds_cons.mp hf with ⟨-, rfl, hop⟩ | ⟨_, _, u, _, hf', -⟩
    · cases hop
      exact Or.inl rfl
    · cases (feeds_singleton.mp hf').2.2
  · intro pre t₁ t₂ t₃ e post o t hops hrun hdue hconn
    rcases pre with _ | ⟨op, pre⟩
    · cases hops
    rcases pre with _ | ⟨op', pre⟩
    · cases hops
      exact Or.inl (by decide)
    · have := congrArg List.length hops
      simp at this

/-- Packets of another host every few seconds keep a server connected that has
been silent for 15 s. -/
theorem checks_stale_foreign :
    let ops : List SpudpOp := [.input 10 1,
      .controlSend 5001 5001 5001 ⟨true, true⟩, .input 99 6000,
      .controlSend 10002 10002 10002 ⟨true, true⟩, .input 99 11000,
      .controlSend 15003 15003 15003 ⟨true, true⟩]
    Chronological 0 ops ∧ Paced (2 ^ 32) 0 ops ∧
      ¬ FreshChecks countingSpeex spudpStart ops := by
  intro ops
  refine ⟨by simp [ops, Chronological, SpudpOp.InOrder, SpudpOp.tick],
    by simp [ops, Paced], ?_⟩
  intro hfresh
  have hst : (run (spudpStep countingSpeex) spudpStart (ops.take 5)).res.map
      (fun t => (decide (t.due (clk 15003)),
        (spudpStep countingSpeex t
          (.controlSend 15003 15003 15003 ⟨true, true⟩)).res.map
            fun t' => (t'.dt.isConnected, t'.dt.serverAddr))) =
        some (true, some (true, some 10)) := by
    decide +kernel
  obtain ⟨t, ht, hst⟩ := Option.map_eq_some_iff.mp hst
  obtain ⟨hdue, hnext⟩ := Prod.mk.inj hst
  obtain ⟨t', ht', hst'⟩ := Option.map_eq_some_iff.mp hnext
  obtain ⟨hconn, hsel⟩ := Prod.mk.inj hst'
  obtain ⟨addr, p, haddr, hmem, hp⟩ := hfresh (ops.take 5) 15003 15003 15003
    ⟨true, true⟩ [] _ t _ t' rfl (Traced.eq_mk_of_res ht)
    (of_decide_eq_true hdue) (Traced.eq_mk_of_res ht') hconn
  obtain rfl := Option.some.inj (hsel.symm.trans haddr)
  -- the only packet of that server came at time 1
  have hp1 : p = 1 := by simpa [ops] using hmem
  omega

end Roip
