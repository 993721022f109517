/-
Roip/Lib/CArray.lean

C arrays and C strings.

A C array of `n` cells is a list that carries its length.  Every access is
checked: a write outside the array is undefined (`none`).  A pointer into an
array is represented by the cells from it to the end of the array, so pointer
arithmetic is `List.drop` and a read past the end meets `[]`.

C strings are byte lists; `cstr` is the string a byte array holds, up to the
terminating zero.
-/
import Mathlib.Data.List.Basic
import Mathlib.Tactic.Common

namespace Roip

/-! ### Arrays -/

/-- An array of `n` cells. -/
structure CArray (α : Type*) (n : Nat) where
  cells : List α
  size : cells.length = n
deriving DecidableEq

namespace CArray

variable {α β : Type*} {n : Nat}

@[ext] theorem ext {a b : CArray α n} (h : a.cells = b.cells) : a = b := by
  cases a; cases b; simp_all

/-- An array filled with one value (`memset`, or static initialisation). -/
def fill (n : Nat) (v : α) : CArray α n := ⟨List.replicate n v, by simp⟩

/-- `a[i]`. -/
def get (a : CArray α n) (i : Fin n) : α := a.cells.get (i.cast a.size.symm)

/-- `a[i] = v`. -/
def set (a : CArray α n) (i : Nat) (v : α) : Option (CArray α n) :=
  if i < n then some ⟨a.cells.set i v, by simp [a.size]⟩ else none

/-- `memcpy(&a[pos], src, src.length)`. -/
def memcpy (a : CArray α n) (pos : Nat) (src : List α) :
    Option (CArray α n) :=
  if h : pos + src.length ≤ n then
    some ⟨a.cells.take pos ++ src ++ a.cells.drop (pos + src.length), by
      have := a.size
      simp only [List.length_append, List.length_take, List.length_drop]
      omega⟩
  else none

/-- Apply a function to every cell. -/
def map (f : α → β) (a : CArray α n) : CArray β n :=
  ⟨a.cells.map f, by simp [a.size]⟩

/-- Combine two arrays cell by cell. -/
def zipWith (f : α → α → β) (a b : CArray α n) : CArray β n :=
  ⟨List.zipWith f a.cells b.cells, by simp [a.size, b.size]⟩

@[simp] theorem fill_cells (n : Nat) (v : α) :
    (fill n v).cells = List.replicate n v := rfl

@[simp] theorem map_cells (f : α → β) (a : CArray α n) :
    (a.map f).cells = a.cells.map f := rfl

theorem map_fill (f : α → β) (v : α) :
    (fill n v).map f = fill n (f v) := ext (by simp)

/-- A store inside the array. -/
theorem set_eq_some_iff {a b : CArray α n} {i : Nat} {v : α} :
    a.set i v = some b ↔ i < n ∧ b.cells = a.cells.set i v := by
  unfold set
  split
  · next h => simp [h, CArray.ext_iff, eq_comm]
  · next h => simp [h]

/-- A copy inside the array. -/
theorem memcpy_eq_some_iff {a b : CArray α n} {pos : Nat} {src : List α} :
    a.memcpy pos src = some b ↔ pos + src.length ≤ n ∧
      b.cells = a.cells.take pos ++ src ++ a.cells.drop (pos + src.length) := by
  unfold memcpy
  split
  · next h => simp [h, CArray.ext_iff, eq_comm]
  · next h => simp [h]

theorem get_eq_iff {a : CArray α n} {i : Fin n} {v : α} :
    a.get i = v ↔ a.cells[i.1]? = some v := by
  have hi : i.1 < a.cells.length := by
    rw [a.size]
    exact i.2
  rw [List.getElem?_eq_getElem hi, Option.some.injEq]
  rfl

theorem get_fill (v : α) (i : Fin n) : (fill n v).get i = v := by
  rw [get_eq_iff, fill_cells, List.getElem?_replicate, if_pos i.2]

/-- A cell that has been copied. -/
theorem get_memcpy_inside {a b : CArray α n} {pos j : Nat} {src : List α}
    {i : Fin n} (h : a.memcpy pos src = some b) (hj : j < src.length)
    (hi : i.1 = pos + j) : b.get i = src[j] := by
  obtain ⟨hroom, hcells⟩ := memcpy_eq_some_iff.mp h
  have hfront : (a.cells.take pos).length = pos := by
    rw [List.length_take, a.size]
    omega
  rw [get_eq_iff, hcells, List.append_assoc, List.getElem?_append_right
    (by omega), List.getElem?_append_left (by omega), hfront, hi,
    Nat.add_sub_cancel_left, List.getElem?_eq_getElem hj]

/-- A cell outside a copy. -/
theorem get_memcpy_outside {a b : CArray α n} {pos : Nat} {src : List α}
    {i : Fin n} (h : a.memcpy pos src = some b)
    (hi : i.1 < pos ∨ pos + src.length ≤ i.1) : b.get i = a.get i := by
  obtain ⟨hroom, hcells⟩ := memcpy_eq_some_iff.mp h
  have hfront : (a.cells.take pos).length = pos := by
    rw [List.length_take, a.size]
    omega
  rw [get_eq_iff, hcells, List.append_assoc]
  rcases hi with hi | hi
  · rw [List.getElem?_append_left (by omega), List.getElem?_take_of_lt hi]
    exact get_eq_iff.mp rfl
  · rw [List.getElem?_append_right (by omega), List.getElem?_append_right
      (by omega), hfront, List.getElem?_drop]
    have hsub : pos + src.length + (i.1 - pos - src.length) = i.1 := by omega
    rw [hsub]
    exact get_eq_iff.mp rfl

/-- A copy behind the first cells. -/
theorem memcpy_append {a : CArray α n} {front back x : List α} {i : Nat}
    (h : a.cells = front ++ back) (hi : front.length = i)
    (hx : x.length ≤ back.length) :
    ∃ c, a.memcpy i x = some c ∧
      c.cells = (front ++ x) ++ back.drop x.length := by
  have hsize : front.length + back.length = n := by
    rw [← a.size, h, List.length_append]
  have hroom : i + x.length ≤ n := by omega
  refine ⟨_, dif_pos hroom, ?_⟩
  show a.cells.take i ++ x ++ a.cells.drop (i + x.length) = _
  rw [h, ← hi, List.take_left, List.drop_append, List.drop_of_length_le
    (Nat.le_add_right _ _), Nat.add_sub_cancel_left, List.nil_append]

/-- A store behind the first cells. -/
theorem set_append {a : CArray α n} {front back : List α} {i : Nat} {v : α}
    (h : a.cells = front ++ back) (hi : front.length = i) (hb : back ≠ []) :
    ∃ c, a.set i v = some c ∧ c.cells = front ++ v :: back.tail := by
  obtain ⟨y, ys, rfl⟩ := List.exists_cons_of_ne_nil hb
  have hroom : i < n := by
    rw [← a.size, h, List.length_append, List.length_cons]
    omega
  refine ⟨_, if_pos hroom, ?_⟩
  show a.cells.set i v = _
  rw [h, List.set_append_right _ _ (Nat.le_of_eq hi), hi, Nat.sub_self]
  rfl

end CArray

/-! ### Strings -/

/-- The bytes of a string literal. -/
def bytesOf (s : String) : List UInt8 := s.toList.map fun c => UInt8.ofNat c.toNat

/-- The C string at the start of a byte array: the bytes before the first
zero. -/
def cstr (a : List UInt8) : List UInt8 := a.takeWhile (· ≠ 0)

/-- `strncmp(a, b, n) == 0`; undefined if it reads past the end of either
array. -/
def strncmpEq : List UInt8 → List UInt8 → Nat → Option Bool
  | _, _, 0 => some true
  | x :: xs, y :: ys, n + 1 =>
    if x ≠ y then some false
    else if x = 0 then some true
    else strncmpEq xs ys n
  | _, _, _ + 1 => none

end Roip
