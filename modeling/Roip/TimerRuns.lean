/-
Roip/TimerRuns.lean

The handlers of the network stack, as the main loop runs them.

Reassembly, ARP and DNS put their timeouts in the list again whenever they
have run out, and TCP does so as long as there are connections.  `main` sets
them up twice: `lwip_init` calls `sys_timeouts_init`, and so does `main`
itself.  So each of the three is in the list twice, and in every run, however
irregularly the main loop comes round, they are called in step with one
another, twice in each of their periods (`timers_run`).  The periods are those
of a time that falls behind the clock whenever a poll is late (`Behind`).
-/
import Mathlib.Algebra.GroupWithZero.Nat
import Roip.Timers

namespace Roip

open DeltaQueue

/-! ### The handlers -/

/-- The handlers, all without an argument. -/
inductive Handler
  | ipReassTimer
  | arpTimer
  | dnsTimer
  | tcpipTcpTimer
deriving DecidableEq, Repr

/-- `IP_TMR_INTERVAL`, `ARP_TMR_INTERVAL`, `DNS_TMR_INTERVAL` and
`TCP_TMR_INTERVAL`. -/
def Handler.interval : Handler → UInt32
  | .ipReassTimer => 1000
  | .arpTimer => 5000
  | .dnsTimer => 1000
  | .tcpipTcpTimer => 250

/-- `next_timeout`, `timeouts_last_time` and `tcpip_tcp_timer_active`. -/
structure Timers where
  nextTimeout : List (SysTimeo Handler)
  timeoutsLastTime : UInt32
  tcpipTcpTimerActive : Bool
deriving DecidableEq, Repr

/-- `sys_timeout(h's interval, h, NULL)`. -/
def Timers.start (s : Timers) (h : Handler) : Option Timers := do
  let nextTimeout ← sysTimeout s.nextTimeout h.interval h
  some { s with nextTimeout }

/-- What a handler does with the timeouts, after the work that gives it its
name.  `pcbs` tells whether there are TCP connections then, active ones or
ones in time-wait. -/
def Timers.handler (s : Timers) (h : Handler) (pcbs : Bool) : Option Timers :=
  match h with
  | .tcpipTcpTimer =>
    if pcbs then s.start .tcpipTcpTimer
    else some { s with tcpipTcpTimerActive := false }
  | h => s.start h

/-- `tcp_timer_needed`. -/
def Timers.tcpTimerNeeded (s : Timers) (pcbs : Bool) : Option Timers :=
  if !s.tcpipTcpTimerActive && pcbs then
    { s with tcpipTcpTimerActive := true }.start .tcpipTcpTimer
  else some s

/-- `sys_timeouts_init`, at the time `now`. -/
def Timers.sysTimeoutsInit (s : Timers) (now : UInt32) : Option Timers := do
  let s ← s.start .ipReassTimer
  let s ← s.start .arpTimer
  let s ← s.start .dnsTimer
  some { s with timeoutsLastTime := now }

/-- The loop of `sys_check_timeouts`.  `pcbs i` is about the `i`-th handler
that is run. -/
def Timers.checkLoop (now : UInt32) (pcbs : Nat → Bool) :
    Nat → UInt32 → Nat → Timers → Traced Handler Timers
  | 0, _, _, _ => Traced.undef
  | fuel + 1, diff, i, s =>
    match s.nextTimeout with
    | [] => pure s
    | t :: rest =>
      if t.time ≤ diff then do
        let s := { s with timeoutsLastTime := now, nextTimeout := rest }
        Traced.emit t.h
        let s ← Traced.ofOption (s.handler t.h (pcbs i))
        checkLoop now pcbs fuel (diff - t.time) (i + 1) s
      else pure s

/-- `sys_check_timeouts`, at the time `now`. -/
def Timers.sysCheckTimeouts (s : Timers) (now : UInt32) (pcbs : Nat → Bool) :
    Traced Handler Timers :=
  let diff := now - s.timeoutsLastTime
  Timers.checkLoop now pcbs (s.nextTimeout.length * (diff.toNat + 1) + 1) diff
    0 s

/-! ### The main loop -/

/-- The timeouts, and the milliseconds since the counter was started. -/
structure TimerState where
  timers : Timers
  time : Nat

/-- What happens between two steps: the main loop comes to
`sys_check_timeouts` after `ms` milliseconds, or a connection is registered.
-/
inductive TimerAct
  | check (ms : Nat) (pcbs : Nat → Bool)
  | needed (pcbs : Bool)

def timerStep (s : TimerState) : TimerAct → Traced Handler TimerState
  | .check ms pcbs => do
    let timers ← s.timers.sysCheckTimeouts (clk (s.time + ms)) pcbs
    pure ⟨timers, s.time + ms⟩
  | .needed pcbs => do
    let timers ← Traced.ofOption (s.timers.tcpTimerNeeded pcbs)
    pure { s with timers }

/-- The timeouts when the main loop begins: `sys_timeouts_init` is called by
`lwip_init` at the time `t₁`, and by `main` at `t₂`. -/
def bootTimers (t₁ t₂ : Nat) : Option TimerState := do
  let s ← Timers.sysTimeoutsInit ⟨[], 0, false⟩ (clk t₁)
  let s ← s.sysTimeoutsInit (clk t₂)
  some ⟨s, t₂⟩

/-! ### One handler after the other -/

/-- The deadlines of a handler. -/
def pendingOf (h : Handler) (l : List (Nat × Handler)) : List Nat :=
  (l.filter fun x => x.2 = h).map Prod.fst

/-- The deadlines in the list that begins at `v`. -/
def Timers.deadlines (s : Timers) (v : Nat) : List (Nat × Handler) :=
  DeltaQueue.deadlines v (deltas s.nextTimeout)

/-- How much is due up to `T`, as a bound for the loop. -/
def due (T : Nat) (l : List (Nat × Handler)) : Nat :=
  (l.map fun x => T + 1 - x.1).sum

section Pending

variable {h k : Handler} {l : List (Nat × Handler)} {t v T n : Nat}

theorem pendingOf_cons :
    pendingOf h ((t, k) :: l) =
      if k = h then t :: pendingOf h l else pendingOf h l := by
  rw [pendingOf, List.filter_cons]
  by_cases hk : k = h <;> simp [hk, pendingOf]

theorem pendingOf_enter_self (hl : Sorted l)
    (ht : ∀ x ∈ pendingOf h l, x ≤ t) :
    pendingOf h (enter t h l) = pendingOf h l ++ [t] := by
  have hfilter := filter_enter (t := t) (a := h) (fun k => decide (k = h)) hl
  have happend : enter t h (l.filter fun x => decide (x.2 = h)) =
      l.filter (fun x => decide (x.2 = h)) ++ [(t, h)] :=
    enter_of_le fun x hx => ht x.1 (List.mem_map_of_mem hx)
  rw [if_pos (decide_eq_true rfl), happend] at hfilter
  rw [pendingOf, hfilter, List.map_append]
  rfl

theorem pendingOf_enter_ne (hl : Sorted l) (hk : k ≠ h) :
    pendingOf h (enter t k l) = pendingOf h l := by
  have hfilter := filter_enter (t := t) (a := k) (fun k => decide (k = h)) hl
  rw [if_neg (by simpa using hk)] at hfilter
  rw [pendingOf, hfilter]
  rfl

theorem length_eq_pendingOf (l : List (Nat × Handler)) :
    l.length = (pendingOf .ipReassTimer l).length +
      (pendingOf .arpTimer l).length + (pendingOf .dnsTimer l).length +
      (pendingOf .tcpipTcpTimer l).length := by
  induction l with
  | nil => rfl
  | cons x l ih =>
    obtain ⟨t, - | - | - | -⟩ := x <;>
      simp only [List.length_cons, pendingOf_cons, reduceCtorEq, if_true,
        if_false] <;>
      omega

theorem due_enter : due T (enter t h l) = T + 1 - t + due T l := by
  induction l with
  | nil => rfl
  | cons x l ih =>
    obtain ⟨u, k⟩ := x
    rw [enter]
    split
    · rfl
    · simp only [due, List.map_cons, List.sum_cons] at ih ⊢
      omega

theorem due_le (hl : ∀ x ∈ l, v ≤ x.1) : due (v + n) l ≤ l.length * (n + 1) := by
  induction l with
  | nil => exact Nat.zero_le _
  | cons x l ih =>
    have hx := hl x List.mem_cons_self
    have := ih fun y hy => hl y (List.mem_cons_of_mem x hy)
    simp only [due, List.map_cons, List.sum_cons, List.length_cons,
      Nat.succ_mul] at this ⊢
    omega

end Pending

/-- The calls made so far, `o`, and the deadlines in the list, which begins at
`v`.  Every handler but that of TCP is in the list twice. -/
structure TimerInv (o : List Handler) (v : Nat) (s : Timers) : Prop where
  pending : ∀ h ≠ .tcpipTcpTimer, pendingOf h (s.deadlines v) =
    [(o.count h / 2 + 1) * h.interval.toNat,
      ((o.count h + 1) / 2 + 1) * h.interval.toNat]
  called : ∀ h ≠ .tcpipTcpTimer,
    (o.count h + 1) / 2 * h.interval.toNat ≤ v
  tcp : pendingOf .tcpipTcpTimer (s.deadlines v) = [] ∧
      s.tcpipTcpTimerActive = false ∨
    ∃ d, pendingOf .tcpipTcpTimer (s.deadlines v) = [d] ∧
      s.tcpipTcpTimerActive = true ∧
      250 * (o.count .tcpipTcpTimer + 1) ≤ d
  tcpCalled : 250 * o.count .tcpipTcpTimer ≤ v

section Steps

variable {o : List Handler} {v : Nat} {s s' : Timers} {h : Handler}

/-- The pool is never empty. -/
theorem TimerInv.length_le (hi : TimerInv o v s) :
    s.nextTimeout.length ≤ 7 := by
  have hlen := length_eq_pendingOf (s.deadlines v)
  rw [hi.pending _ (by decide), hi.pending _ (by decide),
    hi.pending _ (by decide), Timers.deadlines, length_deadlines,
    length_deltas] at hlen
  rcases hi.tcp with ⟨htcp, -⟩ | ⟨d, htcp, -⟩ <;>
    (rw [Timers.deadlines] at htcp
     rw [htcp] at hlen
     simp only [List.length_cons, List.length_nil] at hlen
     omega)

/-- A timeout is set. -/
theorem start_spec (s : Timers) (v : Nat) (h : Handler)
    (hroom : s.nextTimeout.length < memNumSysTimeout) :
    ∃ q, s.start h = some { s with nextTimeout := q } ∧
      (Timers.deadlines { s with nextTimeout := q } v) =
        enter (v + h.interval.toNat) h (s.deadlines v) := by
  obtain ⟨q, hset, hdeltas⟩ := sysTimeout_deltas hroom h.interval h
  refine ⟨q, ?_, ?_⟩
  · rw [Timers.start, hset]
    rfl
  · rw [Timers.deadlines, hdeltas, deadlines_insert]
    rfl

theorem count_concat (o : List Handler) (h k : Handler) :
    (o ++ [k]).count h = if k = h then o.count h + 1 else o.count h := by
  rw [List.count_append]
  by_cases hk : k = h <;> simp [hk]

theorem Handler.interval_pos (h : Handler) : 0 < h.interval.toNat := by
  cases h <;> decide

theorem handler_of_ne (s : Timers) (hh : h ≠ .tcpipTcpTimer) (pcbs : Bool) :
    s.handler h pcbs = s.start h := by
  cases h
  case tcpipTcpTimer => exact absurd rfl hh
  all_goals rfl

/-- What is pending, when `h` has run out at `w` and been called. -/
structure Fired (o : List Handler) (v w : Nat) (s s₁ : Timers) (h : Handler) :
    Prop where
  inv : TimerInv o v s
  le : v ≤ w
  active : s₁.tcpipTcpTimerActive = s.tcpipTcpTimerActive
  room : s₁.nextTimeout.length < memNumSysTimeout
  pop : s.deadlines v = (w, h) :: s₁.deadlines w

section Fired

variable {w T : Nat} {s₁ : Timers}

theorem Fired.pending (hf : Fired o v w s s₁ h) (k : Handler) :
    pendingOf k (s.deadlines v) =
      if h = k then w :: pendingOf k (s₁.deadlines w)
      else pendingOf k (s₁.deadlines w) := by
  rw [hf.pop, pendingOf_cons]

/-- A handler other than TCP's sets its timeout again. -/
theorem Fired.periodic (hf : Fired o v w s s₁ h) (hh : h ≠ .tcpipTcpTimer)
    (hT : w ≤ T) :
    ∃ s', s₁.start h = some s' ∧ TimerInv (o ++ [h]) w s' ∧
      s'.timeoutsLastTime = s₁.timeoutsLastTime ∧
      due T (s'.deadlines w) < due T (s.deadlines v) := by
  obtain ⟨q, hstart, hset⟩ := start_spec s₁ w h hf.room
  have hsorted : Sorted (s₁.deadlines w) := sorted_deadlines _ _
  have hpos := h.interval_pos
  have hle := hf.le
  -- the second of its two deadlines is still pending
  have hpend := hf.pending h
  rw [if_pos rfl, hf.inv.pending h hh, List.cons.injEq] at hpend
  obtain ⟨hw, hrest⟩ := hpend
  have hnew : w + h.interval.toNat =
      ((o.count h + 1 + 1) / 2 + 1) * h.interval.toNat := by
    have hhalf : (o.count h + 1 + 1) / 2 = o.count h / 2 + 1 := by omega
    rw [hhalf, Nat.succ_mul _ h.interval.toNat, hw]
  have hself : pendingOf h (enter (w + h.interval.toNat) h (s₁.deadlines w)) =
      [((o.count h + 1) / 2 + 1) * h.interval.toNat,
        w + h.interval.toNat] := by
    rw [pendingOf_enter_self hsorted, ← hrest]
    · rfl
    · rw [← hrest]
      refine List.forall_mem_singleton.mpr ?_
      rw [hnew]
      exact Nat.mul_le_mul_right _ (by omega)
  refine ⟨_, hstart, ⟨fun k hk => ?_, fun k hk => ?_, ?_, ?_⟩, rfl, ?_⟩
  · rw [hset, count_concat]
    split
    · next heq =>
      subst heq
      rw [hself, hnew]
    · next hne =>
      rw [pendingOf_enter_ne hsorted hne, ← hf.inv.pending k hk, hf.pending k,
        if_neg hne]
  · rw [count_concat]
    split
    · next heq =>
      subst heq
      have hhalf : (o.count h + 1 + 1) / 2 = o.count h / 2 + 1 := by omega
      rw [hhalf]
      exact Nat.le_of_eq hw
    · exact Nat.le_trans (hf.inv.called k hk) hle
  · have hsame : pendingOf .tcpipTcpTimer (s.deadlines v) =
        pendingOf .tcpipTcpTimer
          (enter (w + h.interval.toNat) h (s₁.deadlines w)) := by
      rw [hf.pending, if_neg hh, pendingOf_enter_ne hsorted hh]
    rw [hset, ← hsame, count_concat, if_neg hh]
    show _ ∧ s₁.tcpipTcpTimerActive = false ∨
      ∃ d, _ ∧ s₁.tcpipTcpTimerActive = true ∧ _
    rw [hf.active]
    exact hf.inv.tcp
  · rw [count_concat, if_neg hh]
    exact Nat.le_trans hf.inv.tcpCalled hle
  · rw [hset, due_enter, hf.pop]
    simp only [due, List.map_cons, List.sum_cons]
    omega

/-- TCP's handler does so as long as there are connections. -/
theorem Fired.tcp (hf : Fired o v w s s₁ .tcpipTcpTimer) (hT : w ≤ T)
    (pcbs : Bool) :
    ∃ s', s₁.handler .tcpipTcpTimer pcbs = some s' ∧
      TimerInv (o ++ [.tcpipTcpTimer]) w s' ∧
      s'.timeoutsLastTime = s₁.timeoutsLastTime ∧
      due T (s'.deadlines w) < due T (s.deadlines v) := by
  have hsorted : Sorted (s₁.deadlines w) := sorted_deadlines _ _
  have hle := hf.le
  -- its only deadline is gone
  have hpend := hf.pending .tcpipTcpTimer
  rw [if_pos rfl] at hpend
  obtain ⟨hactive, hrest, hcount⟩ : s.tcpipTcpTimerActive = true ∧
      pendingOf .tcpipTcpTimer (s₁.deadlines w) = [] ∧
      250 * (o.count .tcpipTcpTimer + 1) ≤ w := by
    rcases hf.inv.tcp with ⟨hnone, -⟩ | ⟨d, hone, hactive, hcount⟩
    · rw [hnone] at hpend
      cases hpend
    · rw [hone, List.cons.injEq] at hpend
      obtain ⟨rfl, hnil⟩ := hpend
      exact ⟨hactive, hnil.symm, hcount⟩
  have hother (k : Handler) (hk : k ≠ .tcpipTcpTimer) :
      pendingOf k (s₁.deadlines w) = pendingOf k (s.deadlines v) := by
    rw [hf.pending k, if_neg (Ne.symm hk)]
  have hdue : due T (s.deadlines v) = T + 1 - w + due T (s₁.deadlines w) := by
    rw [hf.pop]
    simp [due]
  rcases pcbs with - | -
  · refine ⟨{ s₁ with tcpipTcpTimerActive := false }, rfl,
      ⟨fun k hk => ?_, fun k hk => ?_, Or.inl ⟨hrest, rfl⟩, ?_⟩, rfl, ?_⟩
    · rw [count_concat, if_neg (Ne.symm hk), ← hf.inv.pending k hk]
      exact hother k hk
    · rw [count_concat, if_neg (Ne.symm hk)]
      exact Nat.le_trans (hf.inv.called k hk) hle
    · rw [count_concat, if_pos rfl]
      exact hcount
    · rw [hdue]
      show due T (s₁.deadlines w) < _
      omega
  · obtain ⟨q, hstart, hset⟩ := start_spec s₁ w .tcpipTcpTimer hf.room
    have hinterval : Handler.tcpipTcpTimer.interval.toNat = 250 := rfl
    rw [hinterval] at hset
    refine ⟨_, hstart, ⟨fun k hk => ?_, fun k hk => ?_, ?_, ?_⟩, rfl, ?_⟩
    · rw [count_concat, if_neg (Ne.symm hk), hset,
        pendingOf_enter_ne hsorted (Ne.symm hk), hother k hk,
        hf.inv.pending k hk]
    · rw [count_concat, if_neg (Ne.symm hk)]
      exact Nat.le_trans (hf.inv.called k hk) hle
    · refine Or.inr ⟨w + 250, ?_, hf.active.trans hactive, ?_⟩
      · rw [hset, pendingOf_enter_self hsorted (by rw [hrest]; exact nofun),
          hrest]
        rfl
      · rw [count_concat, if_pos rfl]
        omega
    · rw [count_concat, if_pos rfl]
      exact hcount
    · rw [hset, due_enter, hdue]
      omega

end Fired

/-- **A handler runs**, and the calls and the list stay in step. -/
theorem fire_spec (hi : TimerInv o v s) {t : SysTimeo Handler}
    {rest : List (SysTimeo Handler)} (hq : s.nextTimeout = t :: rest)
    (now : UInt32) (pcbs : Bool) {T : Nat} (hT : v + t.time.toNat ≤ T) :
    ∃ s', Timers.handler
        { s with timeoutsLastTime := now, nextTimeout := rest } t.h pcbs =
          some s' ∧
      TimerInv (o ++ [t.h]) (v + t.time.toNat) s' ∧
      s'.timeoutsLastTime = now ∧
      due T (s'.deadlines (v + t.time.toNat)) < due T (s.deadlines v) := by
  have hlen := hi.length_le
  rw [hq, List.length_cons] at hlen
  have hpool : memNumSysTimeout = 300 := rfl
  have hf : Fired o v (v + t.time.toNat) s
      { s with timeoutsLastTime := now, nextTimeout := rest } t.h := by
    refine ⟨hi, Nat.le_add_right _ _, rfl, ?_, ?_⟩
    · show rest.length < _
      omega
    · rw [Timers.deadlines, hq]
      rfl
  by_cases hh : t.h = .tcpipTcpTimer
  · rw [hh] at hf ⊢
    exact hf.tcp hT pcbs
  · rw [handler_of_ne _ hh]
    exact hf.periodic hh hT

/-- **The loop** runs whatever has run out, and leaves nothing that has. -/
theorem checkLoop_spec (now : UInt32) (pcbs : Nat → Bool) {fuel : Nat}
    (hi : TimerInv o v s) (diff : UInt32) (i : Nat)
    (hfuel : due (v + diff.toNat) (s.deadlines v) < fuel) :
    ∃ o' s' v', Timers.checkLoop now pcbs fuel diff i s = ⟨o', some s'⟩ ∧
      TimerInv (o ++ o') v' s' ∧ v ≤ v' ∧ v' ≤ v + diff.toNat ∧
      (∀ x ∈ s'.deadlines v', v + diff.toNat < x.1) ∧
      (s'.timeoutsLastTime = now ∧ o' ≠ [] ∨ o' = [] ∧ s' = s ∧ v' = v) := by
  induction fuel generalizing o v s diff i with
  | zero => exact absurd hfuel (Nat.not_lt_zero _)
  | succ fuel ih =>
    rw [Timers.checkLoop]
    rcases hq : s.nextTimeout with - | ⟨t, rest⟩
    · refine ⟨[], s, v, rfl, ?_, Nat.le_refl v, Nat.le_add_right _ _, ?_,
        Or.inr ⟨rfl, rfl, rfl⟩⟩
      · rwa [List.append_nil]
      · rw [Timers.deadlines, hq]
        exact nofun
    · dsimp only
      split
      · next hle =>
        have hle' := UInt32.le_iff_toNat_le.mp hle
        have hsub := UInt32.toNat_sub_of_le _ _ hle
        have hend : v + t.time.toNat + (diff - t.time).toNat =
            v + diff.toNat := by omega
        obtain ⟨s₁, hrun, hi₁, hlast, hdue⟩ := fire_spec hi hq now (pcbs i)
          (T := v + diff.toNat) (Nat.add_le_add_left hle' v)
        obtain ⟨o', s', v', hloop, hi', hv, hv', hlate, hwhen⟩ :=
          ih hi₁ (diff - t.time) (i + 1) (by rw [hend]; omega)
        refine ⟨t.h :: o', s', v', ?_, ?_, by omega, by omega, ?_, ?_⟩
        · rw [hrun, Traced.ofOption_some, pure_bind, hloop]
          rfl
        · rwa [List.append_assoc] at hi'
        · rwa [hend] at hlate
        · refine Or.inl ⟨?_, List.cons_ne_nil _ _⟩
          rcases hwhen with ⟨hnow, -⟩ | ⟨-, rfl, -⟩
          · exact hnow
          · exact hlast
      · next hgt =>
        have hgt' := UInt32.lt_iff_toNat_lt.mp (UInt32.not_le.mp hgt)
        refine ⟨[], s, v, rfl, ?_, Nat.le_refl v, Nat.le_add_right _ _, ?_,
          Or.inr ⟨rfl, rfl, rfl⟩⟩
        · rwa [List.append_nil]
        · rw [Timers.deadlines, hq]
          refine List.forall_mem_cons.mpr ⟨?_, fun x hx => ?_⟩
          · exact Nat.add_lt_add_left hgt' v
          · have := le_deadlines hx
            omega

/-- `tcp_timer_needed` sets TCP's timeout, if it is not set. -/
theorem TimerInv.needed (hi : TimerInv o v s) (pcbs : Bool) :
    ∃ s', s.tcpTimerNeeded pcbs = some s' ∧ TimerInv o v s' ∧
      s'.timeoutsLastTime = s.timeoutsLastTime := by
  rw [Timers.tcpTimerNeeded]
  split
  · next hneeded =>
    have hoff : s.tcpipTcpTimerActive = false := by
      simpa using (Bool.and_eq_true_iff.mp hneeded).1
    have hnone : pendingOf .tcpipTcpTimer (s.deadlines v) = [] := by
      rcases hi.tcp with ⟨hnone, -⟩ | ⟨d, -, hon, -⟩
      · exact hnone
      · rw [hoff] at hon
        cases hon
    have hsorted : Sorted (s.deadlines v) := sorted_deadlines _ _
    have hlen := hi.length_le
    have hpool : memNumSysTimeout = 300 := rfl
    have hinterval : Handler.tcpipTcpTimer.interval.toNat = 250 := rfl
    obtain ⟨q, hstart, hset⟩ := start_spec
      { s with tcpipTcpTimerActive := true } v .tcpipTcpTimer
      (by show s.nextTimeout.length < _; omega)
    rw [hinterval] at hset
    change _ = enter (v + 250) .tcpipTcpTimer (s.deadlines v) at hset
    have hcalled := hi.tcpCalled
    refine ⟨_, hstart, ⟨fun k hk => ?_, hi.called, ?_, hcalled⟩, rfl⟩
    · rw [hset, pendingOf_enter_ne hsorted (Ne.symm hk)]
      exact hi.pending k hk
    · refine Or.inr ⟨v + 250, ?_, rfl, by omega⟩
      rw [hset, pendingOf_enter_self hsorted (by rw [hnone]; exact nofun),
        hnone]
      rfl
  · exact ⟨s, rfl, hi, rfl⟩

/-- What `sys_check_timeouts` leaves when `d` more milliseconds are shown. -/
structure Checked (o : List Handler) (v d : Nat) (s : Timers) : Prop where
  inv : TimerInv o v s
  late : ∀ x ∈ s.deadlines v, v + d < x.1

theorem Checked.periodic {d : Nat} (hc : Checked o v d s)
    (hh : h ≠ .tcpipTcpTimer) :
    o.count h = 2 * (v / h.interval.toNat) ∧
      v % h.interval.toNat + d < h.interval.toNat := by
  have hcalled := hc.inv.called h hh
  have hpend := hc.inv.pending h hh
  have hlate : v + d < (o.count h / 2 + 1) * h.interval.toNat := by
    have hmem : (o.count h / 2 + 1) * h.interval.toNat ∈
        pendingOf h (s.deadlines v) := by
      rw [hpend]
      exact List.mem_cons_self
    obtain ⟨x, hx, hxt⟩ := List.mem_map.mp hmem
    rw [← hxt]
    exact hc.late x (List.mem_of_mem_filter hx)
  have hpos := h.interval_pos
  -- both are due in the same period, so they have been called equally often
  have heven : (o.count h + 1) / 2 < o.count h / 2 + 1 :=
    Nat.lt_of_mul_lt_mul_right (Nat.lt_of_le_of_lt hcalled
      (Nat.lt_of_le_of_lt (Nat.le_add_right v d) hlate))
  have hhalf : (o.count h + 1) / 2 = o.count h / 2 := by omega
  rw [hhalf] at hcalled
  have hdiv : v / h.interval.toNat = o.count h / 2 :=
    Nat.div_eq_of_lt_le hcalled
      (Nat.lt_of_le_of_lt (Nat.le_add_right v d) hlate)
  have hmod := Nat.div_add_mod v h.interval.toNat
  rw [hdiv, Nat.mul_comm] at hmod
  rw [Nat.succ_mul] at hlate
  exact ⟨by omega, by omega⟩

end Steps

/-! ### Every run -/

/-- What holds between the steps, since `t₂`: the list begins at `v` by its
own count, and was last begun at `ℓ`. -/
structure Timed (t₂ : Nat) (o : List Handler) (s : TimerState) (v ℓ : Nat) :
    Prop where
  inv : TimerInv o v s.timers
  last : s.timers.timeoutsLastTime = clk ℓ
  begun : t₂ + v ≤ ℓ
  le : ℓ ≤ s.time

/-- How far the time of the list is behind the clock: what is left of a poll
that calls a handler is lost, less than a second each time. -/
structure Behind (t₂ : Nat) (o : List Handler) (s : TimerState) (v ℓ : Nat) :
    Prop where
  lost : ℓ ≤ t₂ + v + 1000 * o.length
  shown : s.time < ℓ + 1000

/-- The counter does not come round between two polls. -/
def TimerAct.Prompt : TimerAct → Prop
  | .check ms _ => ms + 1000 ≤ 2 ^ 32
  | .needed _ => True

section Runs

variable {t₁ t₂ v ℓ : Nat} {o : List Handler} {s : TimerState}

/-- Booting sets every timeout of the three handlers twice. -/
theorem bootTimers_timed (t₁ t₂ : Nat) :
    ∃ s₀, bootTimers t₁ t₂ = some s₀ ∧ Timed t₂ [] s₀ 0 t₂ ∧
      Behind t₂ [] s₀ 0 t₂ := by
  refine ⟨⟨⟨[⟨1000, .ipReassTimer⟩, ⟨0, .dnsTimer⟩, ⟨0, .ipReassTimer⟩,
    ⟨0, .dnsTimer⟩, ⟨4000, .arpTimer⟩, ⟨0, .arpTimer⟩], clk t₂, false⟩, t₂⟩,
    rfl, ⟨⟨fun h hh => ?_, fun h hh => ?_, Or.inl ⟨rfl, rfl⟩,
      Nat.le_refl 0⟩, rfl, Nat.le_refl t₂, Nat.le_refl t₂⟩,
    ⟨Nat.le_add_right _ _, Nat.lt_add_of_pos_right (by decide)⟩⟩
  · cases h
    case tcpipTcpTimer => exact absurd rfl hh
    all_goals rfl
  · refine Nat.le_of_eq ?_
    rw [List.count_nil, Nat.zero_add, Nat.div_eq_of_lt (by decide),
      Nat.zero_mul]

/-- `sys_check_timeouts` returns, and what it leaves has not run out. -/
theorem Timed.check (hs : Timed t₂ o s v ℓ) (ms : Nat) (pcbs : Nat → Bool) :
    ∃ o' s' v' ℓ', timerStep s (.check ms pcbs) = ⟨o', some s'⟩ ∧
      Timed t₂ (o ++ o') s' v' ℓ' ∧
      Checked (o ++ o') v'
        (clk s'.time - s'.timers.timeoutsLastTime).toNat s'.timers ∧
      (ms + 1000 ≤ 2 ^ 32 → Behind t₂ o s v ℓ →
        Behind t₂ (o ++ o') s' v' ℓ') := by
  have hsub := clk_sub (Nat.le_add_right_of_le hs.le : ℓ ≤ s.time + ms)
  rw [← hs.last] at hsub
  obtain ⟨hinv, hlast, hbegun, hle⟩ := hs
  have hmod := Nat.mod_le (s.time + ms - ℓ) (2 ^ 32)
  have hfuel : due (v + (clk (s.time + ms) - s.timers.timeoutsLastTime).toNat)
      (s.timers.deadlines v) < s.timers.nextTimeout.length *
        ((clk (s.time + ms) - s.timers.timeoutsLastTime).toNat + 1) + 1 := by
    have := due_le (l := s.timers.deadlines v) (v := v)
      (n := (clk (s.time + ms) - s.timers.timeoutsLastTime).toNat)
      fun x hx => le_deadlines hx
    rw [Timers.deadlines, length_deadlines, length_deltas] at this
    exact Nat.lt_succ_of_le this
  obtain ⟨o', s', v', hloop, hi', hv, hv', hlate, hwhen⟩ :=
    checkLoop_spec (clk (s.time + ms)) pcbs hinv _ 0 hfuel
  have hstep : timerStep s (.check ms pcbs) =
      ⟨o', some ⟨s', s.time + ms⟩⟩ := by
    rw [timerStep, Timers.sysCheckTimeouts, hloop, Traced.mk_bind]
    simp
  -- the next second begins later than what has been shown
  have hsecond : v + (clk (s.time + ms) - s.timers.timeoutsLastTime).toNat <
      v' + 1000 := by
    have hchecked : Checked (o ++ o') v'
        (v + (clk (s.time + ms) - s.timers.timeoutsLastTime).toNat - v') s' :=
      ⟨hi', fun x hx => by rw [Nat.add_sub_cancel' hv']; exact hlate x hx⟩
    have hperiod := (hchecked.periodic (show Handler.ipReassTimer ≠
      .tcpipTcpTimer by decide)).2
    have hinterval : Handler.ipReassTimer.interval.toNat = 1000 := rfl
    rw [hinterval] at hperiod
    omega
  rcases hwhen with ⟨hnow, hne⟩ | ⟨rfl, rfl, rfl⟩
  · refine ⟨o', _, v', s.time + ms, hstep,
      ⟨hi', hnow, by omega, Nat.le_refl _⟩, ⟨hi', fun x hx => ?_⟩,
      fun hprompt hb => ⟨?_, Nat.lt_add_of_pos_right (by decide)⟩⟩
    · rw [hnow, UInt32.sub_self]
      have := hlate x hx
      show v' + 0 < x.1
      omega
    · have hpos := List.length_pos_of_ne_nil hne
      have hlost := hb.lost
      have hshown := hb.shown
      rw [List.length_append]
      rw [Nat.mod_eq_of_lt (by omega)] at hsub
      omega
  · refine ⟨[], _, v', ℓ, hstep,
      ⟨hi', hlast, hbegun, Nat.le_add_right_of_le hle⟩, ⟨hi', hlate⟩,
      fun hprompt hb => ⟨?_, ?_⟩⟩
    · rw [List.append_nil]
      exact hb.lost
    · have hshown := hb.shown
      rw [Nat.mod_eq_of_lt (by omega)] at hsub
      show s.time + ms < ℓ + 1000
      omega

theorem Timed.step (hs : Timed t₂ o s v ℓ) (act : TimerAct) :
    ∃ o' s' v' ℓ', timerStep s act = ⟨o', some s'⟩ ∧
      Timed t₂ (o ++ o') s' v' ℓ' ∧
      (act.Prompt → Behind t₂ o s v ℓ → Behind t₂ (o ++ o') s' v' ℓ') := by
  cases act with
  | check ms pcbs =>
    obtain ⟨o', s', v', ℓ', hstep, hs', -, hb⟩ := hs.check ms pcbs
    exact ⟨o', s', v', ℓ', hstep, hs', hb⟩
  | needed pcbs =>
    obtain ⟨timers, hneeded, hinv, hlast⟩ := hs.inv.needed pcbs
    refine ⟨[], ⟨timers, s.time⟩, v, ℓ, ?_, ?_, fun _ hb => ?_⟩
    · rw [timerStep, hneeded]
      rfl
    · rw [List.append_nil]
      exact ⟨hinv, hlast.trans hs.last, hs.begun, hs.le⟩
    · rw [List.append_nil]
      exact ⟨hb.lost, hb.shown⟩

/-- **The handlers in every run.**  However irregularly the main loop calls
`sys_check_timeouts`, and whatever connections come and go: the pool never
runs out of timeouts, and whenever `sys_check_timeouts` returns, reassembly,
ARP and DNS have been called exactly twice in each of their periods of one
and the same time `v`, none of them is overdue in that time, and TCP has been
called at most `v / 250` times in all.  The time `v` is never ahead of the
clock, and falls behind it: by less than a second for each call, since what is
left of a late poll is dropped. -/
theorem timers_run (t₁ t₂ : Nat) :
    ∃ s₀, bootTimers t₁ t₂ = some s₀ ∧
      ∀ (acts : List TimerAct) (ms : Nat) (pcbs : Nat → Bool),
        ∃ o s v, run timerStep s₀ (acts ++ [.check ms pcbs]) = ⟨o, some s⟩ ∧
          s.timers.nextTimeout.length ≤ 7 ∧ t₂ + v ≤ s.time ∧
          ((∀ act ∈ acts ++ [.check ms pcbs], act.Prompt) →
            s.time < t₂ + v + 1000 * (o.length + 1)) ∧
          (∀ h ≠ Handler.tcpipTcpTimer,
            o.count h = 2 * (v / h.interval.toNat) ∧
              v % h.interval.toNat +
                (clk s.time - s.timers.timeoutsLastTime).toNat <
                  h.interval.toNat) ∧
          250 * o.count .tcpipTcpTimer ≤ v := by
  obtain ⟨s₀, hboot, hs₀, hbehind⟩ := bootTimers_timed t₁ t₂
  refine ⟨s₀, hboot, fun acts ms pcbs => ?_⟩
  have hacts : ∃ o s, run timerStep s₀ acts = ⟨o, some s⟩ ∧
      ∃ v ℓ, Timed t₂ o s v ℓ ∧
        ((∀ act ∈ acts, act.Prompt) → Behind t₂ o s v ℓ) := by
    refine run_total ⟨0, t₂, hs₀, fun _ => hbehind⟩
      fun o s act hf ⟨v, ℓ, hs, hb⟩ => ?_
    obtain ⟨o', s', v', ℓ', hstep, hs', hb'⟩ := hs.step act
    obtain ⟨pre, post, hsplit, -⟩ := hf
    refine ⟨o', s', hstep, v', ℓ', hs', fun hprompt => ?_⟩
    exact hb' (hprompt act (by simp [hsplit])) (hb hprompt)
  obtain ⟨o₁, s₁, hrun, v₁, ℓ₁, hs₁, hb₁⟩ := hacts
  obtain ⟨o₂, s, v, ℓ, hstep, hs, hchecked, hb⟩ := hs₁.check ms pcbs
  refine ⟨o₁ ++ o₂, s, v,
    run_concat_eq_mk_iff.mpr ⟨s₁, o₁, o₂, hrun, hstep, rfl⟩,
    hs.inv.length_le, Nat.le_trans hs.begun hs.le, fun hprompt => ?_,
    fun h hh => hchecked.periodic hh, hs.inv.tcpCalled⟩
  obtain ⟨hacts, hlast⟩ := List.forall_mem_append.mp hprompt
  obtain ⟨hlost, hshown⟩ := hb (hlast _ (List.mem_singleton.mpr rfl))
    (hb₁ hacts)
  calc s.time < ℓ + 1000 := hshown
    _ ≤ t₂ + v + 1000 * (o₁ ++ o₂).length + 1000 :=
      Nat.add_le_add_right hlost 1000
    _ = t₂ + v + 1000 * ((o₁ ++ o₂).length + 1) := by
      rw [Nat.mul_succ, Nat.add_assoc]

end Runs

end Roip
