/-
Roip/Lib/Numeral.lean

Decimal numbers in text.

`strtoul` reads a decimal number as the C library does, and `decimal` writes
one (`sprintf` with `%u`).  What `strtoul` does with a text is said once, by
taking the text apart into spaces, a sign, digits and a rest (`Numeral`): every
text has these parts (`exists_numeral`), and they determine the value and how
far the reader looks (`Numeral.strtoul_eq`).
-/
import Roip.Lib.CString

namespace Roip

/-! ### Reading a number -/

/-- `isspace`. -/
def isspace (c : UInt8) : Bool := c == 32 || (9 ≤ c && c ≤ 13)

/-- `isdigit`. -/
def isdigit (c : UInt8) : Bool := 48 ≤ c && c ≤ 57

/-- The value of a row of decimal digits. -/
def digitsValue (ds : List UInt8) : Nat :=
  ds.foldl (fun v d => 10 * v + (d.toNat - 48)) 0

/-- `strtoul(s, &end, 10)`: the value, and the distance of `end`.  Without a
digit nothing is read; a value that does not fit is the largest one. -/
def strtoul (s : List UInt8) : UInt32 × Nat :=
  let spaces := (s.takeWhile isspace).length
  let number := s.drop spaces
  let sign := if number.head? = some 43 ∨ number.head? = some 45 then 1 else 0
  let digits := (number.drop sign).takeWhile isdigit
  if digits = [] then (0, 0)
  else
    let v := digitsValue digits
    (if 2 ^ 32 ≤ v then 0xFFFFFFFF
      else if number.head? = some 45 then -UInt32.ofNat v
      else UInt32.ofNat v,
      spaces + sign + digits.length)

/-- How far `strtoul` looks: the place of the first byte that does not belong
to the number. -/
def strtoulScan (s : List UInt8) : Nat :=
  let spaces := (s.takeWhile isspace).length
  let number := s.drop spaces
  let sign := if number.head? = some 43 ∨ number.head? = some 45 then 1 else 0
  spaces + sign + ((number.drop sign).takeWhile isdigit).length

theorem takeWhile_inside {q : UInt8 → Bool} {u b y : List UInt8}
    (h : ((u ++ b).takeWhile q).length < u.length) :
    (u ++ y).takeWhile q = (u ++ b).takeWhile q := by
  induction u with
  | nil => cases h
  | cons x u ih =>
    rw [List.cons_append, List.takeWhile_cons] at h ⊢
    rw [List.cons_append, List.takeWhile_cons]
    split
    · next hx =>
      rw [if_pos hx, List.length_cons, List.length_cons] at h
      rw [ih (Nat.lt_of_succ_lt_succ h)]
    · rfl

/-- A number that ends inside `u` does not depend on what follows. -/
theorem strtoul_inside {u b y : List UInt8}
    (h : strtoulScan (u ++ b) < u.length) :
    strtoul (u ++ y) = strtoul (u ++ b) := by
  rw [strtoulScan] at h
  -- the spaces, the sign and the digits end inside `u`, one after the other
  have hspaces : ((u ++ b).takeWhile isspace).length < u.length := by omega
  have htake : (u ++ y).takeWhile isspace = (u ++ b).takeWhile isspace :=
    takeWhile_inside hspaces
  rw [strtoul, strtoul, htake]
  generalize ((u ++ b).takeWhile isspace).length = k at h hspaces ⊢
  have hdrop (z : List UInt8) : (u ++ z).drop k = u.drop k ++ z :=
    List.drop_append_of_le_length (Nat.le_of_lt hspaces)
  simp only [hdrop] at h ⊢
  obtain ⟨c, v, hv⟩ := List.exists_cons_of_ne_nil
    (fun hnil => absurd (List.drop_eq_nil_iff.mp hnil)
      (Nat.not_le_of_lt hspaces))
  have hlen : k + (c :: v).length = u.length := by
    rw [← hv, List.length_drop]
    omega
  rw [hv] at h ⊢
  have hhead (z : List UInt8) : (c :: v ++ z).head? = some c := rfl
  simp only [hhead] at h ⊢
  generalize (if some c = some 43 ∨ some c = some 45 then 1 else 0) = j at h ⊢
  have hdrop' (z : List UInt8) :
      (c :: v ++ z).drop j = (c :: v).drop j ++ z :=
    List.drop_append_of_le_length (by omega)
  simp only [hdrop'] at h ⊢
  rw [takeWhile_inside (b := b) (by rw [List.length_drop]; omega)]

theorem not_isspace_of_isdigit {c : UInt8} (h : isdigit c = true) :
    isspace c = false := by
  rw [isdigit, Bool.and_eq_true, decide_eq_true_eq, decide_eq_true_eq,
    UInt8.le_iff_toNat_le, UInt8.le_iff_toNat_le] at h
  have h48 : (48 : UInt8).toNat = 48 := rfl
  have h13 : (13 : UInt8).toNat = 13 := rfl
  rw [isspace, Bool.or_eq_false_iff, beq_eq_false_iff_ne,
    Bool.and_eq_false_iff, decide_eq_false_iff_not, decide_eq_false_iff_not,
    UInt8.le_iff_toNat_le, UInt8.le_iff_toNat_le]
  refine ⟨?_, Or.inr (by omega)⟩
  rintro rfl
  exact absurd h.1 (by decide)

/-! ### Numerals -/

/-- The value of a numeral with a sign; a value that does not fit is the
largest one. -/
def numeralValue (sign digits : List UInt8) : UInt32 :=
  if 2 ^ 32 ≤ digitsValue digits then 0xFFFFFFFF
  else if sign = [45] then -UInt32.ofNat (digitsValue digits)
  else UInt32.ofNat (digitsValue digits)

/-- The text `s` as `strtoul` takes it apart: spaces, a sign, digits and what
is behind them. -/
structure Numeral (s spaces sign digits rest : List UInt8) : Prop where
  split : s = spaces ++ (sign ++ (digits ++ rest))
  isspace : ∀ c ∈ spaces, isspace c = true
  isSign : sign = [] ∨ sign = [43] ∨ sign = [45]
  isdigit : ∀ c ∈ digits, isdigit c = true
  digits_end : ∀ c ∈ rest.head?, Roip.isdigit c = false
  sign_end : sign = [] → digits = [] →
    ∀ c ∈ rest.head?, Roip.isspace c = false ∧ c ≠ 43 ∧ c ≠ 45

/-- What is taken from the front ends where the test fails. -/
theorem takeWhile_append_of_head {q : UInt8 → Bool} {l r : List UInt8}
    (hl : ∀ c ∈ l, q c = true) (hr : ∀ c ∈ r.head?, q c = false) :
    (l ++ r).takeWhile q = l := by
  rw [List.takeWhile_append_of_pos hl]
  rcases r with - | ⟨c, r⟩
  · exact List.append_nil l
  · rw [List.takeWhile_cons_of_neg (by rw [hr c rfl]; exact Bool.false_ne_true),
      List.append_nil]

theorem head?_dropWhile_not {q : UInt8 → Bool} {l : List UInt8} :
    ∀ c ∈ (l.dropWhile q).head?, q c = false := by
  intro c hc
  have h := List.head?_dropWhile_not q l
  rw [hc] at h
  exact h

theorem exists_numeral (s : List UInt8) :
    ∃ spaces sign digits rest, Numeral s spaces sign digits rest := by
  have hs : s = s.takeWhile isspace ++ s.dropWhile isspace :=
    (List.takeWhile_append_dropWhile).symm
  have hspace : ∀ c ∈ s.takeWhile isspace, isspace c = true :=
    fun c hc => List.mem_takeWhile_imp hc
  have hnospace : ∀ c ∈ (s.dropWhile isspace).head?, isspace c = false :=
    head?_dropWhile_not
  generalize s.takeWhile isspace = spaces at hs hspace
  generalize s.dropWhile isspace = number at hs hnospace
  have hdigits (l : List UInt8) : l = l.takeWhile isdigit ++ l.dropWhile isdigit :=
    (List.takeWhile_append_dropWhile).symm
  by_cases hsign : number.head? = some 43 ∨ number.head? = some 45
  · -- a sign belongs to the number even if no digit follows
    obtain ⟨c, l, rfl⟩ : ∃ c l, number = c :: l := by
      rcases number with - | ⟨c, l⟩
      · simp at hsign
      · exact ⟨c, l, rfl⟩
    have hc : c = 43 ∨ c = 45 := by simpa using hsign
    refine ⟨spaces, [c], l.takeWhile isdigit, l.dropWhile isdigit, ?_, hspace,
      ?_, fun d hd => List.mem_takeWhile_imp hd, head?_dropWhile_not, ?_⟩
    · rw [← hdigits]
      exact hs
    · rcases hc with rfl | rfl
      · exact Or.inr (Or.inl rfl)
      · exact Or.inr (Or.inr rfl)
    · rintro ⟨⟩
  · refine ⟨spaces, [], number.takeWhile isdigit, number.dropWhile isdigit, ?_,
      hspace, Or.inl rfl, fun d hd => List.mem_takeWhile_imp hd,
      head?_dropWhile_not, ?_⟩
    · rw [← hdigits]
      exact hs
    · intro _ hnil c hc
      have hnumber := hdigits number
      rw [hnil, List.nil_append] at hnumber
      rw [← hnumber] at hc
      rw [hc, not_or, Option.some.injEq, Option.some.injEq] at hsign
      exact ⟨hnospace c hc, hsign⟩

namespace Numeral

variable {s spaces sign digits rest : List UInt8}

/-- Behind the spaces there is no space. -/
theorem spaces_end (h : Numeral s spaces sign digits rest) :
    ∀ c ∈ (sign ++ (digits ++ rest)).head?, Roip.isspace c = false := by
  rcases h.isSign with rfl | rfl | rfl
  · rcases hd : digits with - | ⟨d, ds⟩
    · intro c hc
      exact (h.sign_end rfl hd c hc).1
    · intro c hc
      obtain rfl : d = c := Option.some.inj hc
      exact not_isspace_of_isdigit (h.isdigit d (hd ▸ List.mem_cons_self))
  · rintro c ⟨⟩
    rfl
  · rintro c ⟨⟩
    rfl

/-- Without a sign the number does not begin with one. -/
theorem head_number (h : Numeral s spaces sign digits rest) :
    ((sign ++ (digits ++ rest)).head? = some 43 ↔ sign = [43]) ∧
      ((sign ++ (digits ++ rest)).head? = some 45 ↔ sign = [45]) := by
  rcases h.isSign with rfl | rfl | rfl
  · have hno : ∀ c ∈ (digits ++ rest).head?, c ≠ 43 ∧ c ≠ 45 := by
      rcases hd : digits with - | ⟨d, ds⟩
      · intro c hc
        exact (h.sign_end rfl hd c hc).2
      · intro c hc
        obtain rfl : d = c := Option.some.inj hc
        have hdigit := h.isdigit d (hd ▸ List.mem_cons_self)
        constructor
        · rintro rfl
          exact absurd hdigit (by decide)
        · rintro rfl
          exact absurd hdigit (by decide)
    exact ⟨iff_of_false (fun h43 => (hno 43 h43).1 rfl) (by simp),
      iff_of_false (fun h45 => (hno 45 h45).2 rfl) (by simp)⟩
  · exact ⟨iff_of_true rfl rfl, iff_of_false (by simp) (by simp)⟩
  · exact ⟨iff_of_false (by simp) (by simp), iff_of_true rfl rfl⟩

theorem takeWhile_isspace (h : Numeral s spaces sign digits rest) :
    s.takeWhile Roip.isspace = spaces := by
  rw [h.split]
  exact takeWhile_append_of_head h.isspace h.spaces_end

/-- What `strtoul` makes of a numeral. -/
theorem strtoul_eq (h : Numeral s spaces sign digits rest) :
    strtoul s = (if digits = [] then (0, 0)
      else (numeralValue sign digits,
        spaces.length + sign.length + digits.length)) ∧
    strtoulScan s = spaces.length + sign.length + digits.length := by
  have hdrop : s.drop spaces.length = sign ++ (digits ++ rest) := by
    rw [h.split, List.drop_left]
  have hsign : (if sign = [43] ∨ sign = [45] then 1 else 0) = sign.length := by
    rcases h.isSign with rfl | rfl | rfl <;> rfl
  have hdigits : (digits ++ rest).takeWhile Roip.isdigit = digits :=
    takeWhile_append_of_head h.isdigit h.digits_end
  rw [strtoul, strtoulScan, h.takeWhile_isspace]
  dsimp only
  rw [hdrop]
  simp only [h.head_number.1, h.head_number.2, hsign, List.drop_left, hdigits,
    numeralValue]
  trivial

/-- Digits that follow a numeral belong to it. -/
theorem append (h : Numeral s spaces sign digits []) {more rest : List UInt8}
    (hmore : ∀ c ∈ more, Roip.isdigit c = true) (hne : digits ++ more ≠ [])
    (hrest : ∀ c ∈ rest.head?, Roip.isdigit c = false) :
    Numeral (s ++ (more ++ rest)) spaces sign (digits ++ more) rest where
  split := by
    rw [h.split]
    simp only [List.append_assoc, List.append_nil]
  isspace := h.isspace
  isSign := h.isSign
  isdigit := by
    intro c hc
    rcases List.mem_append.mp hc with hc | hc
    · exact h.isdigit c hc
    · exact hmore c hc
  digits_end := hrest
  sign_end := fun _ hnil => absurd hnil hne

/-- A zero ends a numeral. -/
theorem append_zero (h : Numeral s spaces sign digits rest)
    (z : List UInt8) : Numeral (s ++ 0 :: z) spaces sign digits
      (rest ++ 0 :: z) where
  split := by
    rw [h.split]
    simp only [List.append_assoc]
  isspace := h.isspace
  isSign := h.isSign
  isdigit := h.isdigit
  digits_end := by
    rcases hr : rest with - | ⟨c, r⟩
    · rintro c ⟨⟩
      rfl
    · rw [← hr]
      intro d hd
      exact h.digits_end d (by rw [hr] at hd ⊢; exact hd)
  sign_end := by
    intro hs hnil
    rcases hr : rest with - | ⟨c, r⟩
    · rintro c ⟨⟩
      exact ⟨rfl, by decide, by decide⟩
    · intro d hd
      exact h.sign_end hs hnil d (by rw [hr]; exact hd)

end Numeral

/-- A number ends at a zero. -/
theorem strtoul_append_zero (s z : List UInt8) :
    strtoul (s ++ 0 :: z) = strtoul s := by
  obtain ⟨spaces, sign, digits, rest, h⟩ := exists_numeral s
  rw [h.strtoul_eq.1, (h.append_zero z).strtoul_eq.1]

/-! ### Writing a number -/

/-- `sprintf(s, "%u", n)`. -/
def decimal (n : Nat) : List UInt8 :=
  (Nat.toDigits 10 n).map fun c => UInt8.ofNat c.toNat

theorem toNat_digit {n : Nat} (h : n < 10) :
    (UInt8.ofNat (48 + n)).toNat = 48 + n := by
  rw [UInt8.toNat_ofNat', Nat.mod_eq_of_lt (by omega)]

theorem decimal_of_lt {n : Nat} (h : n < 10) :
    decimal n = [UInt8.ofNat (48 + n)] := by
  rw [decimal, Nat.toDigits_of_lt_base h, List.map_singleton,
    Nat.toNat_digitChar_of_lt_ten h]

theorem decimal_of_le {n : Nat} (h : 10 ≤ n) :
    decimal n = decimal (n / 10) ++ decimal (n % 10) := by
  rw [decimal, Nat.toDigits_of_base_le (by decide) h, List.map_append,
    ← Nat.toDigits_of_lt_base (Nat.mod_lt n (by decide))]
  rfl

theorem isdigit_of_mem_decimal {n : Nat} {d : UInt8} (h : d ∈ decimal n) :
    isdigit d = true := by
  induction n using Nat.strong_induction_on generalizing d with
  | _ n ih =>
    rcases Nat.lt_or_ge n 10 with hn | hn
    · rw [decimal_of_lt hn, List.mem_singleton] at h
      rw [h, isdigit, Bool.and_eq_true, decide_eq_true_eq, decide_eq_true_eq,
        UInt8.le_iff_toNat_le, UInt8.le_iff_toNat_le, toNat_digit hn]
      exact ⟨Nat.le_add_right 48 n,
        Nat.add_le_add_left (Nat.le_of_lt_succ hn) 48⟩
    · rw [decimal_of_le hn, List.mem_append] at h
      rcases h with h | h
      · exact ih (n / 10) (by omega) h
      · exact ih (n % 10) (by omega) h

theorem decimal_ne_nil (n : Nat) : decimal n ≠ [] := by
  rw [decimal, ne_eq, List.map_eq_nil_iff]
  exact Nat.toDigits_ne_nil

/-- What is written is read back. -/
theorem digitsValue_decimal (n : Nat) : digitsValue (decimal n) = n := by
  induction n using Nat.strong_induction_on with
  | _ n ih =>
    rcases Nat.lt_or_ge n 10 with hn | hn
    · rw [decimal_of_lt hn, digitsValue, List.foldl_cons, List.foldl_nil,
        toNat_digit hn]
      omega
    · have hlast : n % 10 < 10 := Nat.mod_lt n (by decide)
      rw [decimal_of_le hn, decimal_of_lt hlast, digitsValue,
        List.foldl_append, ← digitsValue, ih (n / 10) (by omega),
        List.foldl_cons, List.foldl_nil, toNat_digit hlast]
      omega

/-- **Reading a rendered number.** -/
theorem strtoul_decimal {n : Nat} {s : List UInt8} (hn : n < 2 ^ 32)
    (hs : ∀ c ∈ s.head?, isdigit c = false) :
    strtoul (decimal n ++ s) = (UInt32.ofNat n, (decimal n).length) := by
  have h : Numeral (decimal n ++ s) [] [] (decimal n) s := {
    split := rfl
    isspace := by rintro c ⟨⟩
    isSign := Or.inl rfl
    isdigit := fun d hd => isdigit_of_mem_decimal hd
    digits_end := hs
    sign_end := fun _ hnil => absurd hnil (decimal_ne_nil n) }
  have hlt : ¬ 2 ^ 32 ≤ n := Nat.not_le_of_lt hn
  rw [h.strtoul_eq.1, if_neg (decimal_ne_nil n), numeralValue,
    digitsValue_decimal, if_neg hlt, if_neg (List.cons_ne_nil 45 []).symm,
    List.length_nil, Nat.zero_add]

end Roip
