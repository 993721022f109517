/-
Roip/Lib/CString.lean

Scanning bytes through raw pointers.

A scanner reads the bytes from a pointer on and does not know where the object
ends it points into: it reads on into what lies behind.  So memory is a byte
list that is followed by zeros (`byteAt`), and a pointer into it is an index.
`find` is the search loop that steps before it looks, and `strncmpEq0`
compares.
-/
import Mathlib.Algebra.Group.Nat.Defs
import Mathlib.Data.List.GetD
import Mathlib.Data.List.TakeWhile
import Roip.Lib.CArray

namespace Roip

/-! ### Memory -/

/-- The byte at `i`. -/
def byteAt (m : List UInt8) (i : Nat) : UInt8 := m.getD i 0

/-- `n` bytes from `p` on. -/
def bytesAt (m : List UInt8) (p n : Nat) : List UInt8 :=
  (m.drop p ++ List.replicate n 0).take n

/-- `strlen`. -/
def strlen0 (m : List UInt8) : Nat := (cstr m).length

theorem bytesAt_of_drop {m xs ys : List UInt8} {p : Nat}
    (h : m.drop p = xs ++ ys) : bytesAt m p xs.length = xs := by
  rw [bytesAt, h, List.append_assoc, List.take_left]

@[simp] theorem bytesAt_length (m : List UInt8) (p n : Nat) :
    (bytesAt m p n).length = n := by
  rw [bytesAt, List.length_take, List.length_append, List.length_replicate]
  omega

/-- The first byte of a copy, and the others. -/
theorem bytesAt_succ (m : List UInt8) (p n : Nat) :
    bytesAt m p (n + 1) = byteAt m p :: bytesAt m (p + 1) n := by
  by_cases hp : p < m.length
  · have hbyte : byteAt m p = m[p] := List.getD_eq_getElem m 0 hp
    have htake (l : List UInt8) : (l ++ List.replicate (n + 1) 0).take n =
        (l ++ List.replicate n 0).take n := by
      rw [List.replicate_succ', ← List.append_assoc,
        List.take_append_of_le_length (by simp)]
    rw [bytesAt, bytesAt, List.drop_eq_getElem_cons hp, hbyte,
      List.cons_append, List.take_succ_cons, htake]
  · have hbyte : byteAt m p = 0 :=
      List.getD_eq_default m 0 (Nat.le_of_not_lt hp)
    rw [bytesAt, bytesAt, List.drop_of_length_le (Nat.le_of_not_lt hp),
      List.drop_of_length_le (by omega), hbyte, List.nil_append,
      List.nil_append, List.take_replicate, List.take_replicate,
      Nat.min_self, Nat.min_self]
    rfl

/-- A copy in two parts. -/
theorem bytesAt_add (m : List UInt8) (p n k : Nat) :
    bytesAt m p (n + k) = bytesAt m p n ++ bytesAt m (p + n) k := by
  induction n generalizing p with
  | zero =>
    have hnil : bytesAt m p 0 = [] := List.take_zero
    rw [Nat.zero_add, hnil]
    rfl
  | succ n ih =>
    rw [Nat.succ_add_eq_add_succ, Nat.add_succ, bytesAt_succ, ih, bytesAt_succ,
      List.cons_append, Nat.succ_add_eq_add_succ]

/-- A copy from inside `w` does not depend on what follows. -/
theorem bytesAt_inside {w b y : List UInt8} {p n : Nat}
    (h : p + n ≤ w.length) : bytesAt (w ++ y) p n = bytesAt (w ++ b) p n := by
  have hn : n ≤ (w.drop p).length := by
    rw [List.length_drop]
    omega
  rw [bytesAt, bytesAt, List.drop_append_of_le_length (by omega),
    List.drop_append_of_le_length (by omega), List.append_assoc,
    List.append_assoc, List.take_append_of_le_length hn,
    List.take_append_of_le_length hn]

/-- What is behind the first part of what is left. -/
theorem drop_of_append {w x y : List UInt8} {p : Nat}
    (h : w.drop p = x ++ y) : w.drop (p + x.length) = y := by
  rw [← List.drop_drop, h, List.drop_left]

theorem byteAt_drop (m : List UInt8) (p i : Nat) :
    byteAt (m.drop p) i = byteAt m (p + i) := by
  rw [byteAt, byteAt, List.getD_eq_getElem?_getD, List.getElem?_drop,
    List.getD_eq_getElem?_getD]

theorem byteAt_append_left {m x : List UInt8} {i : Nat} (h : i < m.length) :
    byteAt (m ++ x) i = byteAt m i := by
  rw [byteAt, byteAt, List.getD_append _ _ _ _ h]

/-- What is in front of the first `c`. -/
theorem takeWhile_ne_of_split {l xs ys : List UInt8} {c : UInt8}
    (h : l = xs ++ c :: ys) (hc : c ∉ xs) : l.takeWhile (· ≠ c) = xs := by
  have hpos : ∀ x ∈ xs, decide (x ≠ c) = true := by
    intro x hx
    exact decide_eq_true fun hxc => hc (hxc ▸ hx)
  rw [h, List.takeWhile_append_of_pos hpos,
    List.takeWhile_cons_of_neg (by simp), List.append_nil]

theorem takeWhile_ne_of_not_mem {l : List UInt8} {c : UInt8} (h : c ∉ l) :
    l.takeWhile (· ≠ c) = l := by
  rw [List.takeWhile_eq_self_iff]
  intro x hx
  exact decide_eq_true fun hxc => h (hxc ▸ hx)

/-- A string ends at a zero, if not before. -/
theorem cstr_append_cons_zero (p rest : List UInt8) :
    cstr (p ++ 0 :: rest) = cstr p := by
  induction p with
  | nil => rfl
  | cons c p ih =>
    rw [cstr] at ih
    rw [List.cons_append, cstr, cstr, List.takeWhile_cons, List.takeWhile_cons,
      ih]
    rfl

/-- The string in front of a zero. -/
theorem cstr_append_zero {p : List UInt8} (h : 0 ∉ p) (rest : List UInt8) :
    cstr (p ++ 0 :: rest) = p := takeWhile_ne_of_split rfl h

/-! ### Searching -/

/-- The search with at most `n` further steps. -/
def findFrom (m : List UInt8) (c : UInt8) : Nat → Nat → Nat
  | 0, p => p
  | n + 1, p => if byteAt m p = c then p else findFrom m c n (p + 1)

/-- `do { p++; } while (*p != c && p < end)`. -/
def find (m : List UInt8) (c : UInt8) (e p : Nat) : Nat :=
  findFrom m c (e - (p + 1)) (p + 1)

theorem le_findFrom (m : List UInt8) (c : UInt8) (n p : Nat) :
    p ≤ findFrom m c n p := by
  induction n generalizing p with
  | zero => exact Nat.le_refl p
  | succ n ih =>
    rw [findFrom]
    split
    · exact Nat.le_refl p
    · exact Nat.le_of_succ_le (ih (p + 1))

theorem lt_find (m : List UInt8) (c : UInt8) (e p : Nat) :
    p < find m c e p := le_findFrom m c _ _

theorem findFrom_congr {m m' : List UInt8} {c : UInt8} {n p : Nat}
    (h : ∀ i, p ≤ i → i < p + n → byteAt m i = byteAt m' i) :
    findFrom m c n p = findFrom m' c n p := by
  induction n generalizing p with
  | zero => rfl
  | succ n ih =>
    rw [findFrom, findFrom, h p (Nat.le_refl p) (by omega),
      ih fun i hi hlt => h i (by omega) (by omega)]

theorem findFrom_mono {m : List UInt8} {c : UInt8} {n n' p : Nat}
    (hn : n ≤ n') (h : findFrom m c n p < p + n) :
    findFrom m c n' p = findFrom m c n p := by
  induction n generalizing n' p with
  | zero => exact absurd h (Nat.lt_irrefl p)
  | succ n ih =>
    rcases n' with - | n'
    · cases hn
    · rw [findFrom] at h ⊢
      rw [findFrom]
      split
      · rfl
      · next hne =>
        rw [if_neg hne] at h
        exact ih (Nat.le_of_succ_le_succ hn) (by omega)

theorem findFrom_payload (w b : List UInt8) (c : UInt8) {n p : Nat}
    (hn : n = w.length - p) :
    findFrom (w ++ b) c n p = p + ((w.drop p).takeWhile (· ≠ c)).length := by
  induction n generalizing p with
  | zero =>
    rw [List.drop_of_length_le (by omega)]
    rfl
  | succ n ih =>
    have hp : p < w.length := by omega
    have hbyte : byteAt (w ++ b) p = w[p] := by
      rw [byteAt_append_left hp]
      exact List.getD_eq_getElem w 0 hp
    rw [findFrom, hbyte, List.drop_eq_getElem_cons hp]
    by_cases hc : w[p] = c
    · rw [if_pos hc, List.takeWhile_cons_of_neg (by simpa using hc)]
      rfl
    · rw [if_neg hc, List.takeWhile_cons_of_pos (by simpa using hc),
        List.length_cons, ih (by omega)]
      omega

/-- **A search in a payload** with something behind it passes what is in front
of the first `c`, or all of the payload. -/
theorem find_payload (w b : List UInt8) (c : UInt8) (p : Nat) :
    find (w ++ b) c w.length p =
      p + 1 + ((w.drop (p + 1)).takeWhile (· ≠ c)).length :=
  findFrom_payload w b c rfl

/-- A search that stops inside `w` does not depend on what follows, and a
later end does not change it. -/
theorem find_inside {w x y : List UInt8} {c : UInt8} {e p : Nat}
    (he : w.length ≤ e) (h : find (w ++ x) c w.length p < w.length) :
    find (w ++ y) c e p = find (w ++ x) c w.length p := by
  have hp : p < w.length := Nat.lt_trans (lt_find _ _ _ _) h
  -- up to the end of `w` both searches see the same bytes
  have hxy : find (w ++ x) c w.length p = find (w ++ y) c w.length p := by
    refine findFrom_congr fun i hi hlt => ?_
    rw [byteAt_append_left (by omega), byteAt_append_left (by omega)]
  rw [hxy] at h ⊢
  -- the search has stopped, so more steps do not matter
  refine findFrom_mono (by omega) ?_
  rw [find] at h
  omega

/-! ### Comparing -/

/-- `strncmp(a, b, n) == 0`. -/
def strncmpEq0 : List UInt8 → List UInt8 → Nat → Bool
  | _, _, 0 => true
  | a, b, n + 1 =>
    if byteAt a 0 ≠ byteAt b 0 then false
    else if byteAt a 0 = 0 then true
    else strncmpEq0 a.tail b.tail n

/-- The comparison with the whole of a string asks for a prefix. -/
theorem strncmpEq0_iff {s rest m : List UInt8} (h : 0 ∉ s) :
    strncmpEq0 (s ++ rest) m s.length = true ↔ s <+: m := by
  induction s generalizing m with
  | nil => simp [strncmpEq0]
  | cons x s ih =>
    have hx : x ≠ 0 := fun hx => h (hx ▸ List.mem_cons_self)
    have hs : 0 ∉ s := fun hs => h (List.mem_cons_of_mem x hs)
    rcases m with - | ⟨y, m⟩
    · simp [strncmpEq0, byteAt, hx]
    · by_cases hxy : x = y
      · subst hxy
        simpa [strncmpEq0, byteAt, hx] using ih hs
      · simp [strncmpEq0, byteAt, hxy]

theorem zero_notMem_cstr (m : List UInt8) : 0 ∉ cstr m := by
  intro h
  simpa using List.mem_takeWhile_imp h

/-- A text without a zero begins a string if it begins the memory. -/
theorem prefix_cstr_iff {p m : List UInt8} (h : 0 ∉ p) :
    p <+: cstr m ↔ p <+: m := by
  constructor
  · intro hp
    exact hp.trans (List.takeWhile_prefix _)
  · rintro ⟨z, rfl⟩
    have hpos : ∀ c ∈ p, decide (c ≠ 0) = true := by
      intro c hc
      exact decide_eq_true fun h0 => h (h0 ▸ hc)
    rw [cstr, List.takeWhile_append_of_pos hpos]
    exact List.prefix_append _ _

/-- The comparison of as many bytes as the first string has. -/
theorem strncmpEq0_cstr {a m : List UInt8} :
    strncmpEq0 a m (strlen0 a) = true ↔ cstr a <+: cstr m := by
  have hsplit : cstr a ++ a.dropWhile (· ≠ 0) = a :=
    List.takeWhile_append_dropWhile
  have h : strncmpEq0 (cstr a ++ a.dropWhile (· ≠ 0)) m (cstr a).length =
      true ↔ cstr a <+: m := strncmpEq0_iff (zero_notMem_cstr a)
  rw [hsplit] at h
  rw [prefix_cstr_iff (zero_notMem_cstr a), ← h, strlen0]

/-- A comparison of `n` bytes depends on `n` bytes. -/
theorem strncmpEq0_congr {a m m' : List UInt8} {n : Nat}
    (h : ∀ i, i < n → byteAt m i = byteAt m' i) :
    strncmpEq0 a m n = strncmpEq0 a m' n := by
  have htail (l : List UInt8) (i : Nat) : byteAt l.tail i = byteAt l (i + 1) := by
    cases l <;> rfl
  induction n generalizing a m m' with
  | zero => rw [strncmpEq0, strncmpEq0]
  | succ n ih =>
    have hrest : ∀ i, i < n → byteAt m.tail i = byteAt m'.tail i := by
      intro i hi
      rw [htail, htail]
      exact h (i + 1) (Nat.succ_lt_succ hi)
    rw [strncmpEq0, strncmpEq0, h 0 (Nat.succ_pos n), ih hrest]

end Roip
