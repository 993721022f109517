/-
Roip/Lib/DeltaQueue.lean

Delta queues.

A queue of things to come in which every entry stores the time from the entry
in front of it (`insert`, `remove`).  What it stands for is the list of its
deadlines, the sums of the times up to each entry (`deadlines`): insertion
enters one deadline behind the earlier and the equal ones, and removal takes
one out, and neither moves any other.
-/
import Mathlib.Data.List.Basic
import Mathlib.Tactic.Common

namespace Roip

namespace DeltaQueue

variable {α : Type*}

/-- The deadlines of a queue that begins at `v`. -/
def deadlines (v : Nat) : List (Nat × α) → List (Nat × α)
  | [] => []
  | (d, a) :: q => (v + d, a) :: deadlines (v + d) q

/-- `a` is put in the queue, to come after `d`. -/
def insert (d : Nat) (a : α) : List (Nat × α) → List (Nat × α)
  | [] => [(d, a)]
  | (e, b) :: q =>
    if d < e then (d, a) :: (e - d, b) :: q else (e, b) :: insert (d - e) a q

/-- The whole queue comes later by `c`. -/
def delay (c : Nat) : List (Nat × α) → List (Nat × α)
  | [] => []
  | (d, a) :: q => (d + c, a) :: q

/-- The first entry that satisfies `p` is taken out. -/
def remove (p : α → Bool) : List (Nat × α) → List (Nat × α)
  | [] => []
  | (d, a) :: q => if p a then delay d q else (d, a) :: remove p q

/-- A deadline is entered behind those that are not later. -/
def enter (t : Nat) (a : α) : List (Nat × α) → List (Nat × α)
  | [] => [(t, a)]
  | (u, b) :: l => if t < u then (t, a) :: (u, b) :: l else (u, b) :: enter t a l

/-- Deadlines in order. -/
def Sorted (l : List (Nat × α)) : Prop := l.Pairwise fun x y => x.1 ≤ y.1

variable {v d t u : Nat} {a : α} {q l : List (Nat × α)}

@[simp] theorem deadlines_nil : deadlines v ([] : List (Nat × α)) = [] := rfl

@[simp] theorem deadlines_cons :
    deadlines v ((d, a) :: q) = (v + d, a) :: deadlines (v + d) q := rfl

theorem le_deadlines {x : Nat × α} (h : x ∈ deadlines v q) : v ≤ x.1 := by
  induction q generalizing v with
  | nil => cases h
  | cons e q ih =>
    obtain ⟨d, a⟩ := e
    rcases List.mem_cons.mp h with rfl | h
    · exact Nat.le_add_right v d
    · have := ih h
      omega

theorem sorted_deadlines (v : Nat) (q : List (Nat × α)) :
    Sorted (deadlines v q) := by
  induction q generalizing v with
  | nil => exact List.Pairwise.nil
  | cons e q ih =>
    exact List.pairwise_cons.mpr ⟨fun x hx => le_deadlines hx, ih _⟩

@[simp] theorem length_deadlines : (deadlines v q).length = q.length := by
  induction q generalizing v with
  | nil => rfl
  | cons e q ih => exact congrArg (· + 1) ih

theorem deadlines_delay (c : Nat) :
    deadlines v (delay c q) = deadlines (v + c) q := by
  rcases q with - | ⟨⟨d, a⟩, q⟩
  · rfl
  · have hsum : v + (d + c) = v + c + d := by omega
    rw [delay, deadlines_cons, deadlines_cons, hsum]

/-- **Insertion** enters one deadline. -/
theorem deadlines_insert :
    deadlines v (insert d a q) = enter (v + d) a (deadlines v q) := by
  induction q generalizing v d with
  | nil => rfl
  | cons e q ih =>
    obtain ⟨e, b⟩ := e
    rw [insert]
    split
    · next hlt =>
      rw [deadlines_cons, deadlines_cons, deadlines_cons, enter,
        if_pos (by omega)]
      congr 3 <;> omega
    · next hle =>
      rw [deadlines_cons, ih, deadlines_cons, enter, if_neg (by omega)]
      congr 2
      omega

/-- **Removal** takes one deadline out. -/
theorem deadlines_remove (p : α → Bool) :
    deadlines v (remove p q) = (deadlines v q).eraseP fun x => p x.2 := by
  induction q generalizing v with
  | nil => rfl
  | cons e q ih =>
    obtain ⟨d, b⟩ := e
    rw [remove, deadlines_cons]
    rcases hp : p b with - | -
    · rw [List.eraseP_cons_of_neg (by simp [hp]), ← ih]
      rfl
    · rw [List.eraseP_cons_of_pos (by simp [hp]), if_pos rfl, deadlines_delay]

theorem enter_of_le (h : ∀ x ∈ l, x.1 ≤ t) : enter t a l = l ++ [(t, a)] := by
  induction l with
  | nil => rfl
  | cons x l ih =>
    obtain ⟨u, b⟩ := x
    have hu : u ≤ t := h _ List.mem_cons_self
    rw [enter, if_neg (by omega),
      ih fun y hy => h y (List.mem_cons_of_mem _ hy)]
    rfl

theorem mem_enter {x : Nat × α} :
    x ∈ enter t a l ↔ x = (t, a) ∨ x ∈ l := by
  induction l with
  | nil => simp [enter]
  | cons y l ih =>
    obtain ⟨u, b⟩ := y
    rw [enter]
    split
    · rw [List.mem_cons]
    · rw [List.mem_cons, ih, List.mem_cons]
      tauto

theorem enter_of_lt (h : ∀ x ∈ l, t < x.1) : enter t a l = (t, a) :: l := by
  rcases l with - | ⟨⟨u, b⟩, l⟩
  · rfl
  · rw [enter, if_pos (h _ List.mem_cons_self)]

/-- A choice of the entries. -/
theorem filter_enter (p : α → Bool) (hl : Sorted l) :
    (enter t a l).filter (fun x => p x.2) =
      if p a then enter t a (l.filter fun x => p x.2)
      else l.filter fun x => p x.2 := by
  induction l with
  | nil =>
    rcases hp : p a with - | - <;> simp [enter, hp]
  | cons x l ih =>
    obtain ⟨u, b⟩ := x
    obtain ⟨hfirst, hl⟩ := List.pairwise_cons.mp hl
    rw [enter]
    split
    · next hlt =>
      have hlate : ∀ y ∈ ((u, b) :: l).filter fun x => p x.2, t < y.1 := by
        intro y hy
        rcases List.mem_cons.mp (List.mem_of_mem_filter hy) with rfl | hy
        · exact hlt
        · exact Nat.lt_of_lt_of_le hlt (hfirst y hy)
      rw [enter_of_lt hlate, List.filter_cons]
    · next hle =>
      rw [List.filter_cons, List.filter_cons, ih hl]
      rcases p b with - | - <;> rcases p a with - | - <;> simp [enter, hle]

@[simp] theorem length_insert : (insert d a q).length = q.length + 1 := by
  induction q generalizing d with
  | nil => rfl
  | cons e q ih =>
    obtain ⟨e, b⟩ := e
    rw [insert]
    split
    · rfl
    · exact congrArg (· + 1) ih

end DeltaQueue

end Roip
