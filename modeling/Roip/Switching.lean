/-
Roip/Switching.lean

How fast the selected server changes.

`spudp_control_send` selects the other server before it sends, and takes the
time only if the send succeeds.  After a failure the sending period is still
over, so the next call switches again at once.  `switches_apart_iff` says
that two switches are more than 5 s apart exactly when a switch whose send
fails is not followed by a due call within 5 s.
-/
import Roip.Connection
import Roip.AudioDest

namespace Roip

variable {β : Type}

/-- The call changes the selected server. -/
def Switches (t t' : Spudp β) : Prop :=
  t.dt.st &&& spudpServerMask ≠ t'.dt.st &&& spudpServerMask

/-- Any two switches are more than 5 s apart: the later call begins more than
5 s after the end of the earlier. -/
def SwitchesApart (speex : Speex β) (s₀ : Spudp β) (ops : List SpudpOp) :
    Prop :=
  ∀ pre t₁ t₂ t₃ e o t t' pre' t₁' t₂' t₃' e' o' u u',
    CallAt speex s₀ ops pre t₁ t₂ t₃ e o t t' → Switches t t' →
    CallAt speex s₀ ops pre' t₁' t₂' t₃' e' o' u u' → Switches u u' →
    pre.length < pre'.length → t₃ + 5000 < t₁'

/-- The `spudp_string_send` of a due call returns 0. -/
def SyncFails (t : Spudp β) (t₂ : Nat) (e : SendEnv) : Prop :=
  ∃ o s', spudpStringSend (controlTransition t (clk t₂)) syncPayload 32 e =
    ⟨o, some (0, s')⟩

/-- After a switch whose send fails no call is due within 5 s. -/
def FailuresQuiet (speex : Speex β) (s₀ : Spudp β) (ops : List SpudpOp) :
    Prop :=
  ∀ pre t₁ t₂ t₃ e o t t' pre' t₁' t₂' t₃' e' o' u u',
    CallAt speex s₀ ops pre t₁ t₂ t₃ e o t t' → Switches t t' →
    SyncFails t t₂ e → CallAt speex s₀ ops pre' t₁' t₂' t₃' e' o' u u' →
    u.due (clk t₁') → pre.length < pre'.length → t₃ + 5000 < t₁'

/-! ### One call -/

theorem nextServer_ne (st : UInt8) :
    st &&& spudpServerMask ≠ nextServer st &&& spudpServerMask := by
  unfold nextServer
  split
  · next h => rw [h]; decide
  split
  · next h => rw [h]; decide
  · next h _ => exact h

theorem nextServer_off (st : UInt8) :
    (nextServer st &&& spudpConnected != 0) = false := by
  unfold nextServer
  split
  · decide
  split <;> decide

/-- A switch leaves `SPUDP_CONNECTED` clear. -/
theorem controlTransition_off {s : Spudp β} {now : UInt32}
    (h : Switches s (controlTransition s now)) :
    (controlTransition s now).dt.isConnected = false := by
  unfold controlTransition at *
  split
  · split
    · exact nextServer_off _
    · next h1 h2 =>
      rw [if_pos h1, if_neg h2] at h
      exact absurd rfl h
  · exact nextServer_off _

/-- With `SPUDP_CONNECTED` clear a due call switches. -/
theorem controlTransition_switches {s : Spudp β} (now : UInt32)
    (h : s.dt.isConnected = false) :
    Switches s (controlTransition s now) := by
  rw [Switches, controlTransition, h, if_neg (by decide)]
  exact nextServer_ne _

/-- A call that switches is due, and makes the transition. -/
theorem Switches.due {s s' : Spudp β} {r : Readings} {e : SendEnv}
    {o : List NetOp} (h : Switches s s')
    (hstep : spudpControlSend s r e = ⟨o, some s'⟩) :
    s.due r.now1 ∧ s'.dt = (controlTransition s r.now2).dt := by
  rcases spudpControlSend_cases hstep with ⟨-, -, rfl⟩ | ⟨hdue, hdt, -⟩
  · exact absurd rfl h
  · exact ⟨hdue, hdt⟩

/-- A due call whose send does not fail takes the time. -/
theorem spudpControlSend_takes {s s' : Spudp β} {t₁ t₂ t₃ : Nat}
    {e : SendEnv} {o : List NetOp} (hdue : s.due (clk t₁))
    (hstep : spudpControlSend s ⟨clk t₁, clk t₂, clk t₃⟩ e = ⟨o, some s'⟩) :
    SyncFails s t₂ e ∨ s'.tmCtlpacketSent = clk t₃ := by
  unfold spudpControlSend at hstep
  rw [if_pos (show clk t₁ - s.tmCtlpacketSent > 5000 from hdue)] at hstep
  obtain ⟨⟨n, t⟩, o₁, hsend, hret, -⟩ := Traced.bind_eq_mk_iff.mp hstep
  dsimp only at hret
  split at hret
  · obtain ⟨-, rfl⟩ := Traced.pure_eq_mk_iff.mp hret
    exact Or.inr rfl
  · next hn =>
    obtain rfl : n = 0 := Nat.eq_zero_of_not_pos hn
    exact Or.inl ⟨_, t, Traced.eq_mk_of_res hsend⟩

/-! ### Whole runs -/

/-- Without control packets `SPUDP_CONNECTED` stays clear. -/
theorem stays_off {speex : Speex β} {s t : Spudp β} {ops : List SpudpOp}
    {o : List NetOp} (hno : NoInput ops) (hoff : s.dt.isConnected = false)
    (hrun : run (spudpStep speex) s ops = ⟨o, some t⟩) :
    t.dt.isConnected = false := by
  refine visits_inv (I := fun _ t => t.dt.isConnected = false) hoff ?_
    (Visits.end hrun)
  rintro o u op o' u' ⟨pre, post, hops, -⟩ hu hstep
  rcases spudpStep_cases hstep with ⟨hframe, -⟩ | ⟨addr, t, rfl, -⟩ |
    ⟨t₁, t₂, t₃, e, rfl, -, hctl⟩
  · rw [hframe.isConnected]
    exact hu
  · exact absurd rfl (hno _ (by simp [hops]) addr t)
  · rcases spudpControlSend_cases hctl with ⟨-, -, rfl⟩ | ⟨-, hdt, -⟩
    · exact hu
    · rw [hdt]
      exact controlTransition_off (controlTransition_switches _ hu)

/-- **Switches are apart exactly when failures are quiet.** -/
theorem switches_apart_iff {speex : Speex β} {s₀ : Spudp β} {now : Nat}
    {ops : List SpudpOp} (hno : NoInput ops)
    (hchron : Chronological now ops) :
    SwitchesApart speex s₀ ops ↔ FailuresQuiet speex s₀ ops := by
  constructor
  · -- a due call after a switch is a switch
    intro h pre t₁ t₂ t₃ e o t t' pre' t₁' t₂' t₃' e' o' u u' hcall hsw _
      hcall' hdue hlt
    refine h pre t₁ t₂ t₃ e o t t' pre' t₁' t₂' t₃' e' o' u u' hcall hsw
      hcall' ?_ hlt
    obtain ⟨mid, post, om, rfl, hops, hmid⟩ := hcall.between hcall' hlt
    have hoff : u.dt.isConnected = false := by
      refine stays_off (fun op hop => hno op (by simp [hops, hop])) ?_ hmid
      have hdt := (hsw.due hcall.step).2
      rw [hdt]
      refine controlTransition_off ?_
      rw [Switches, ← hdt]
      exact hsw
    rcases spudpControlSend_cases hcall'.step with ⟨hnot, -⟩ | ⟨-, hdt, -⟩
    · exact absurd hdue hnot
    · rw [Switches, hdt]
      exact controlTransition_switches _ hoff
  · -- up to the later switch there is a first due call
    intro h pre t₁ t₂ t₃ e o t t' pre' t₁' t₂' t₃' e' o' u u' hcall hsw
      hcall' hsw' hlt
    obtain ⟨mid, post, om, rfl, hops, hmid⟩ := hcall.between hcall' hlt
    have hchron' := hchron
    rw [hops, chronological_append] at hchron'
    have hdue' := (hsw'.due hcall'.step).1
    obtain ⟨m₁, k₁, k₂, k₃, ek, m₂, o₁, o₂, v, v', hsplit, hv, hret, hdue,
      hsent, hk, hkt⟩ := first_due hchron'.2.2 hmid hdue' hcall'.step
    refine Nat.lt_of_lt_of_le ?_ hkt
    rcases spudpControlSend_takes (hsw.due hcall.step).1 hcall.step with
      hfail | htime
    · have hops' : ops = (pre ++ .controlSend t₁ t₂ t₃ e :: m₁) ++
          .controlSend k₁ k₂ k₃ ek :: (m₂ ++ post) := by
        have hcut : mid ++ .controlSend t₁' t₂' t₃' e' :: post =
            m₁ ++ .controlSend k₁ k₂ k₃ ek :: (m₂ ++ post) := by
          rw [List.append_cons, hsplit]
          simp
        rw [hops, hcut]
        simp
      obtain ⟨ob, hb⟩ := hcall.before
      refine h pre t₁ t₂ t₃ e o t t' _ k₁ k₂ k₃ ek o₂ v v' hcall hsw hfail
        ⟨⟨_, hops'⟩, ⟨ob ++ (o ++ o₁), ?_⟩, hret⟩ hdue (by simp)
      rw [run_append, hb, Traced.mk_bind, run_cons, hcall.step,
        Traced.mk_bind, hv]
    · rw [Spudp.due, hsent, htime] at hdue
      replace hk : t₃ ≤ k₁ := hk
      have : 5000 < k₁ - t₃ := lt_of_lt_clk_sub hk hdue
      omega

/-- Whether the sync packet of the call, if there is one, would be sent. -/
def syncSent (s : Spudp β) : SpudpOp → Bool
  | .controlSend _ t₂ _ e =>
    (spudpStringSend (controlTransition s (clk t₂)) syncPayload 32 e).res.all
      fun x => decide (x.1 ≠ 0)
  | .input _ _ | .stringSend _ _ _ | .send _ _ _ _ _ _ => true

/-- Two checks whose sends succeed, and one in between that is not due: no
failure, and the switches are apart. -/
theorem switches_apart_iff_three :
    let ops : List SpudpOp := [.controlSend 5001 5001 5002 ⟨true, true⟩,
      .controlSend 7000 7000 7000 ⟨true, true⟩,
      .controlSend 10003 10003 10003 ⟨true, true⟩]
    SwitchesApart countingSpeex spudpStart ops ∧
      FailuresQuiet countingSpeex spudpStart ops := by
  intro ops
  have hchron : Chronological 0 ops := by
    simp [ops, Chronological, SpudpOp.InOrder, SpudpOp.tick]
  have hcheck : checkRun (spudpStep countingSpeex) syncSent spudpStart ops =
      true := by decide +kernel
  have hquiet : FailuresQuiet countingSpeex spudpStart ops := by
    intro pre t₁ t₂ t₃ e o t t' _ _ _ _ _ _ _ _ hcall _ hfail
    obtain ⟨post, hops⟩ := hcall.split
    obtain ⟨o₁, hrun⟩ := hcall.before
    have hok := checkRun_feeds hcheck ⟨pre, post, hops, hrun⟩
    obtain ⟨o₂, s', hsend⟩ := hfail
    rw [syncSent, hsend] at hok
    cases hok
  exact ⟨(switches_apart_iff (by simp [ops, NoInput]) hchron).mpr hquiet,
    hquiet⟩

/-- A switch whose send is refused, and another one a millisecond later. -/
theorem switches_at_once :
    let ops : List SpudpOp := [.controlSend 5001 5001 5001 ⟨true, false⟩,
      .controlSend 5002 5002 5002 ⟨true, true⟩]
    NoInput ops ∧ Chronological 0 ops ∧
      ¬ SwitchesApart countingSpeex spudpStart ops := by
  intro ops
  refine ⟨by simp [ops, NoInput],
    by simp [ops, Chronological, SpudpOp.InOrder, SpudpOp.tick], ?_⟩
  intro h
  have hst : (spudpStep countingSpeex spudpStart
      (.controlSend 5001 5001 5001 ⟨true, false⟩)).res.map (fun t =>
        (t.dt.st, (spudpStep countingSpeex t
          (.controlSend 5002 5002 5002 ⟨true, true⟩)).res.map (·.dt.st))) =
      some (2, some 1) := by
    decide +kernel
  obtain ⟨t, ht, hst⟩ := Option.map_eq_some_iff.mp hst
  obtain ⟨hst1, hnext⟩ := Prod.mk.inj hst
  obtain ⟨t', ht', hst2⟩ := Option.map_eq_some_iff.mp hnext
  have hrun : run (spudpStep countingSpeex) spudpStart
      [.controlSend 5001 5001 5001 ⟨true, false⟩] =
        ⟨(spudpStep countingSpeex spudpStart
          (.controlSend 5001 5001 5001 ⟨true, false⟩)).out, some t⟩ := by
    rw [run_cons, Traced.eq_mk_of_res ht, Traced.mk_bind]
    simp
  have := h [] 5001 5001 5001 ⟨true, false⟩ _ spudpStart t
    [.controlSend 5001 5001 5001 ⟨true, false⟩] 5002 5002 5002 ⟨true, true⟩
    _ t t' ⟨⟨_, rfl⟩, ⟨[], rfl⟩, Traced.eq_mk_of_res ht⟩
    (by rw [Switches, hst1]; decide)
    ⟨⟨[], rfl⟩, ⟨_, hrun⟩, Traced.eq_mk_of_res ht'⟩
    (by rw [Switches, hst1, hst2]; decide) (by decide)
  omega

end Roip
