/-
Roip/Timers.lean

The timeouts of the network stack, `timers.c`.

The pending timeouts are a list, `next_timeout`, in which each one stores the
time from the one in front of it.  `sys_check_timeouts` is called by the main
loop and runs the handlers of those that have expired; the handlers of the
stack put themselves in the list again.

The list refines a calendar, a list of deadlines (`timeouts_refine`).
-/
import Roip.Lib.DeltaQueue
import Roip.Lib.Clock
import Roip.Lib.Run

namespace Roip

open DeltaQueue

/-! ### The list -/

section List

variable {α : Type*}

/-- `struct sys_timeo`: the time, and what is to be called. -/
structure SysTimeo (α : Type*) where
  time : UInt32
  h : α
deriving DecidableEq, Repr

/-- `MEMP_NUM_SYS_TIMEOUT`. -/
abbrev memNumSysTimeout : Nat := 300

/-- The loop of `sys_timeout`, at `t`. -/
def putBehind (t : SysTimeo α) :
    List (SysTimeo α) → SysTimeo α → List (SysTimeo α)
  | [], timeout => [t, { timeout with time := timeout.time - t.time }]
  | n :: rest, timeout =>
    let timeout := { timeout with time := timeout.time - t.time }
    if timeout.time < n.time then
      t :: timeout :: { n with time := n.time - timeout.time } :: rest
    else t :: putBehind n rest timeout

/-- `sys_timeout`.  That the pool is not empty is asserted. -/
def sysTimeout (q : List (SysTimeo α)) (msecs : UInt32) (h : α) :
    Option (List (SysTimeo α)) :=
  if q.length < memNumSysTimeout then
    some <| match q with
      | [] => [⟨msecs, h⟩]
      | t :: rest =>
        if msecs < t.time then
          ⟨msecs, h⟩ :: { t with time := t.time - msecs } :: rest
        else putBehind t rest ⟨msecs, h⟩
  else none

/-- The time of an entry that is gone is added back to the next one. -/
def addBack (time : UInt32) : List (SysTimeo α) → List (SysTimeo α)
  | [] => []
  | n :: rest => { n with time := n.time + time } :: rest

/-- `sys_untimeout`. -/
def sysUntimeout [DecidableEq α] (h : α) :
    List (SysTimeo α) → List (SysTimeo α)
  | [] => []
  | t :: rest =>
    if t.h = h then addBack t.time rest else t :: sysUntimeout h rest

/-- The list as a delta queue. -/
def deltas (q : List (SysTimeo α)) : List (Nat × α) :=
  q.map fun t => (t.time.toNat, t.h)

@[simp] theorem deltas_nil : deltas ([] : List (SysTimeo α)) = [] := rfl

@[simp] theorem deltas_cons (t : SysTimeo α) (q : List (SysTimeo α)) :
    deltas (t :: q) = (t.time.toNat, t.h) :: deltas q := rfl

@[simp] theorem length_deltas (q : List (SysTimeo α)) :
    (deltas q).length = q.length := List.length_map _

theorem toNat_sub_of_not_lt {a b : UInt32} (h : ¬ a < b) :
    (a - b).toNat = a.toNat - b.toNat :=
  UInt32.toNat_sub_of_le _ _ (UInt32.not_lt.mp h)

theorem deltas_putBehind {t timeout : SysTimeo α} {rest : List (SysTimeo α)}
    (h : ¬ timeout.time < t.time) :
    deltas (putBehind t rest timeout) =
      insert timeout.time.toNat timeout.h (deltas (t :: rest)) := by
  have hle := UInt32.le_iff_toNat_le.mp (UInt32.not_lt.mp h)
  induction rest generalizing t timeout with
  | nil =>
    rw [deltas_cons, deltas_nil, DeltaQueue.insert, if_neg (by omega)]
    simp only [putBehind, deltas_cons, toNat_sub_of_not_lt h]
    rfl
  | cons n rest ih =>
    have hsub := toNat_sub_of_not_lt h
    rw [deltas_cons, DeltaQueue.insert, if_neg (by omega), ← hsub, putBehind]
    split
    · next hlt =>
      have hlt' := UInt32.lt_iff_toNat_lt.mp hlt
      rw [deltas_cons, deltas_cons, deltas_cons, deltas_cons,
        DeltaQueue.insert, if_pos hlt',
        UInt32.toNat_sub_of_le _ _ (UInt32.le_of_lt hlt)]
    · next hnlt =>
      rw [deltas_cons, ih hnlt (UInt32.le_iff_toNat_le.mp
        (UInt32.not_lt.mp hnlt))]

/-- **`sys_timeout`** inserts. -/
theorem sysTimeout_deltas {q : List (SysTimeo α)}
    (hroom : q.length < memNumSysTimeout) (msecs : UInt32) (h : α) :
    ∃ q', sysTimeout q msecs h = some q' ∧
      deltas q' = insert msecs.toNat h (deltas q) := by
  refine ⟨_, if_pos hroom, ?_⟩
  rcases q with - | ⟨t, rest⟩
  · rfl
  · dsimp only
    split
    · next hlt =>
      have hlt' := UInt32.lt_iff_toNat_lt.mp hlt
      rw [deltas_cons, deltas_cons, deltas_cons, DeltaQueue.insert,
        if_pos hlt', UInt32.toNat_sub_of_le _ _ (UInt32.le_of_lt hlt)]
    · next hnlt => exact deltas_putBehind hnlt

/-- **`sys_untimeout`** removes, as long as no deadline is too far away. -/
theorem sysUntimeout_deltas [DecidableEq α] {h : α} {q : List (SysTimeo α)}
    {v : Nat} (hq : ∀ x ∈ deadlines v (deltas q), x.1 < v + 2 ^ 32) :
    deltas (sysUntimeout h q) = remove (· = h) (deltas q) := by
  induction q generalizing v with
  | nil => rfl
  | cons t rest ih =>
    rw [deltas_cons, remove, sysUntimeout]
    rw [deltas_cons, deadlines_cons, List.forall_mem_cons] at hq
    split
    · next heq =>
      rw [if_pos (decide_eq_true heq)]
      rcases rest with - | ⟨n, rest⟩
      · rfl
      · rw [deltas_cons, deadlines_cons, List.forall_mem_cons] at hq
        rw [addBack, deltas_cons, deltas_cons, delay, UInt32.toNat_add,
          Nat.mod_eq_of_lt (by omega)]
    · next hne =>
      rw [if_neg (by simpa using hne), deltas_cons]
      refine congrArg _ (ih (v := v + t.time.toNat) fun x hx => ?_)
      have := hq.2 x hx
      omega

/-! ### The calendar -/

/-- What is done with the list.  Expiry takes out the first entry. -/
inductive TimeoutOp (α : Type*)
  | set (msecs : UInt32) (h : α)
  | cancel (h : α)
  | expire

/-- The list, and the time at which it begins. -/
structure Pending (α : Type*) where
  start : Nat
  list : List (SysTimeo α)

def pendingStep [DecidableEq α] (s : Pending α) :
    TimeoutOp α → Traced α (Pending α)
  | .set msecs h => do
    let list ← Traced.ofOption (sysTimeout s.list msecs h)
    pure { s with list }
  | .cancel h => pure { s with list := sysUntimeout h s.list }
  | .expire =>
    match s.list with
    | [] => pure s
    | t :: rest => do
      Traced.emit t.h
      pure ⟨s.start + t.time.toNat, rest⟩

/-- What the list stands for: the time, and the deadlines in their order. -/
structure Calendar (α : Type*) where
  now : Nat
  entries : List (Nat × α)

def calendarStep [DecidableEq α] (c : Calendar α) :
    TimeoutOp α → Traced α (Calendar α)
  | .set msecs h =>
    if c.entries.length < memNumSysTimeout then
      pure { c with entries := enter (c.now + msecs.toNat) h c.entries }
    else Traced.undef
  | .cancel h => pure { c with entries := c.entries.eraseP (·.2 = h) }
  | .expire =>
    match c.entries with
    | [] => pure c
    | (t, h) :: rest => do
      Traced.emit h
      pure ⟨t, rest⟩

/-- The calendar of a list. -/
def Pending.calendar (s : Pending α) : Calendar α :=
  ⟨s.start, deadlines s.start (deltas s.list)⟩

/-- No deadline is too far away. -/
def Pending.Near (s : Pending α) : Prop :=
  ∀ x ∈ deadlines s.start (deltas s.list), x.1 < s.start + 2 ^ 32

/-- A step of the list is a step of the calendar. -/
theorem pendingStep_calendar [DecidableEq α] {s : Pending α} (hs : s.Near)
    (op : TimeoutOp α) :
    (pendingStep s op).image id Pending.calendar =
        calendarStep s.calendar op ∧
      ∀ s', (pendingStep s op).res = some s' → s'.Near := by
  cases op with
  | set msecs h =>
    rw [pendingStep, calendarStep, Pending.calendar, length_deadlines,
      length_deltas]
    split
    · next hroom =>
      obtain ⟨q', hset, hdeltas⟩ := sysTimeout_deltas hroom msecs h
      rw [hset, Traced.ofOption_some, pure_bind]
      refine ⟨?_, ?_⟩
      · rw [← deadlines_insert, ← hdeltas]
        rfl
      · rintro _ ⟨⟩ x hx
        rw [hdeltas, deadlines_insert, mem_enter] at hx
        rcases hx with rfl | hx
        · have := msecs.toNat_lt
          show s.start + msecs.toNat < s.start + 2 ^ 32
          omega
        · exact hs x hx
    · next hfull =>
      have hnone : sysTimeout s.list msecs h = none := if_neg hfull
      rw [hnone]
      exact ⟨rfl, nofun⟩
  | cancel h =>
    have hdeltas := sysUntimeout_deltas (h := h) hs
    have hcal := deadlines_remove (v := s.start) (q := deltas s.list) (· = h)
    rw [← hdeltas] at hcal
    refine ⟨?_, ?_⟩
    · show (⟨[], some ⟨s.start, deadlines s.start _⟩⟩ : Traced α (Calendar α)) =
        ⟨[], some ⟨s.start, _⟩⟩
      rw [hcal]
      rfl
    · rintro _ ⟨⟩ x hx
      rw [hcal] at hx
      exact hs x (List.mem_of_mem_eraseP hx)
  | expire =>
    obtain ⟨start, - | ⟨t, rest⟩⟩ := s
    · exact ⟨rfl, fun s' hs' => by cases hs'; exact hs⟩
    · refine ⟨rfl, ?_⟩
      rintro _ ⟨⟩ x hx
      have := hs x (List.mem_cons_of_mem _ hx)
      dsimp only at this ⊢
      omega

/-- **Refinement.**  However timeouts are set, cancelled and run out, the list
does what the calendar does: every timeout runs out at its own deadline, in
the order of the deadlines, and those of the same deadline in the order in
which they were set. -/
theorem timeouts_refine [DecidableEq α] (ops : List (TimeoutOp α)) :
    (run pendingStep ⟨0, []⟩ ops).image id Pending.calendar =
      run calendarStep ⟨0, []⟩ ops := by
  suffices h : ∀ s : Pending α, s.Near →
      (run pendingStep s ops).image id Pending.calendar =
        run calendarStep s.calendar ops from h ⟨0, []⟩ nofun
  induction ops with
  | nil => intro s _; rfl
  | cons op ops ih =>
    intro s hs
    obtain ⟨hstep, hnear⟩ := pendingStep_calendar hs op
    rw [run_cons, run_cons, ← hstep]
    rcases hres : pendingStep s op with ⟨o, - | s'⟩
    · simp [Traced.image, Traced.ext_iff]
    · have hs' := hnear s' (by rw [hres])
      rw [Traced.mk_bind]
      show _ = (run calendarStep s'.calendar ops).after (o.map id)
      rw [← ih s' hs']
      simp [Traced.image, Traced.ext_iff]

end List

end Roip
