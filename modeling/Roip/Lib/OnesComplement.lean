/-
Roip/Lib/OnesComplement.lean

Sums in ones' complement.

The greatest word is `m`, and every carry out of a word is added again at its
lower end.  What comes of a number `n` is `wrap m n`: the number modulo `m`,
where the multiples of `m` are `m` itself, except for zero.

The bytes of a message are the digits of a number in base `B`.  If a word has
two bytes, `m + 1 = B * B`, the sum of the words of the message is its number
(casting out `m`), and to exchange the bytes of a word is to multiply by `B`.
So a message may be summed in parts of any lengths (`foldl_absorb`).
-/
import Mathlib.Data.Nat.Digits.Defs
import Mathlib.Data.Nat.ModEq
import Mathlib.Tactic.Common
import Mathlib.Tactic.Ring

namespace Roip

namespace OnesComplement

variable {m B a b c n : Nat}

/-! ### Words -/

/-- `n` in words of at most `m`, with end-around carry. -/
def wrap (m n : Nat) : Nat := if n = 0 then 0 else (n - 1) % m + 1

/-- The carries are added once. -/
def fold (m n : Nat) : Nat := n / (m + 1) + n % (m + 1)

/-- The two bytes of a word are exchanged. -/
def swap (B n : Nat) : Nat := n % B * B + n / B

@[simp] theorem wrap_zero : wrap m 0 = 0 := rfl

theorem wrap_of_pos (hn : 0 < n) : wrap m n = (n - 1) % m + 1 :=
  if_neg (by omega)

@[simp] theorem wrap_eq_zero : wrap m n = 0 ↔ n = 0 := by
  rw [wrap]
  split <;> omega

theorem wrap_le (hm : 0 < m) : wrap m n ≤ m := by
  rw [wrap]
  split
  · exact Nat.zero_le m
  · exact Nat.mod_lt _ hm

theorem wrap_modEq (m n : Nat) : wrap m n ≡ n [MOD m] := by
  rcases Nat.eq_zero_or_pos n with rfl | hn
  · rfl
  · have hsucc : n = n - 1 + 1 := by omega
    rw [wrap_of_pos hn]
    conv_rhs => rw [hsucc]
    exact (Nat.mod_modEq _ _).add_right 1

/-- The word of a number: the only one that is congruent to it, and zero only
if it is. -/
theorem eq_wrap (ha : a ≤ m) (hmod : a ≡ n [MOD m]) (h0 : a = 0 ↔ n = 0) :
    a = wrap m n := by
  rcases Nat.eq_zero_or_pos n with rfl | hn
  · exact h0.mpr rfl
  · have hpos : 0 < a := by omega
    have hpred : a - 1 ≡ n - 1 [MOD m] := by
      refine Nat.ModEq.add_right_cancel' 1 ?_
      rwa [Nat.sub_add_cancel hpos, Nat.sub_add_cancel hn]
    rw [wrap_of_pos hn, ← hpred, Nat.mod_eq_of_lt (by omega)]
    omega

theorem wrap_congr (hm : 0 < m) (hmod : a ≡ b [MOD m])
    (h0 : a = 0 ↔ b = 0) : wrap m a = wrap m b :=
  eq_wrap (wrap_le hm) ((wrap_modEq m a).trans hmod) (wrap_eq_zero.trans h0)

theorem wrap_of_le (h : n ≤ m) : wrap m n = n :=
  (eq_wrap h rfl Iff.rfl).symm

/-- Carries may be added before or after a sum. -/
@[simp] theorem wrap_add_wrap (hm : 0 < m) :
    wrap m (a + wrap m b) = wrap m (a + b) :=
  wrap_congr hm ((wrap_modEq m b).add_left a) (by simp)

@[simp] theorem wrap_wrap_add (hm : 0 < m) :
    wrap m (wrap m a + b) = wrap m (a + b) := by
  rw [Nat.add_comm, wrap_add_wrap hm, Nat.add_comm]

theorem wrap_mul_wrap (hm : 0 < m) (c : Nat) :
    wrap m (c * wrap m a) = wrap m (c * a) :=
  wrap_congr hm ((wrap_modEq m a).mul_left c) (by simp)

theorem fold_modEq (m n : Nat) : fold m n ≡ n [MOD m] := by
  have hdiv := Nat.div_add_mod n (m + 1)
  have hn : n = m * (n / (m + 1)) + fold m n := by
    rw [fold]
    conv_lhs => rw [← hdiv, Nat.succ_mul]
    exact Nat.add_assoc _ _ _
  conv_rhs => rw [hn]
  exact (Nat.mul_add_mod _ _ _).symm

theorem fold_eq_zero : fold m n = 0 ↔ n = 0 := by
  have hdiv := Nat.div_add_mod n (m + 1)
  rw [fold]
  constructor
  · intro h
    rw [Nat.eq_zero_of_add_eq_zero_right h, Nat.mul_zero,
      Nat.eq_zero_of_add_eq_zero_left h] at hdiv
    exact hdiv.symm
  · rintro rfl
    simp

/-- **Folding** adds carries. -/
theorem wrap_fold (hm : 0 < m) : wrap m (fold m n) = wrap m n :=
  wrap_congr hm (fold_modEq m n) fold_eq_zero

/-- Folding the sum of two words leaves a word. -/
theorem fold_eq_wrap (h : n ≤ 2 * m) : fold m n = wrap m n := by
  refine eq_wrap ?_ (fold_modEq m n) fold_eq_zero
  rw [fold]
  rcases Nat.lt_or_ge n (m + 1) with hlt | hge
  · rw [Nat.div_eq_of_lt hlt, Nat.mod_eq_of_lt hlt]
    omega
  · have hsub : n - (m + 1) < m + 1 := by omega
    rw [Nat.div_eq_sub_div (Nat.succ_pos m) hge, Nat.div_eq_of_lt hsub,
      Nat.mod_eq_sub_mod hge, Nat.mod_eq_of_lt hsub]
    omega

/-- Folding a number of two words leaves the sum of two words. -/
theorem fold_le (h : n < (m + 1) * (m + 1)) : fold m n ≤ 2 * m := by
  have hdiv : n / (m + 1) < m + 1 := Nat.div_lt_of_lt_mul h
  have hmod : n % (m + 1) < m + 1 := Nat.mod_lt n (Nat.succ_pos m)
  rw [fold]
  omega

theorem base_pos (hB : m + 1 = B * B) : 0 < B := by
  rcases Nat.eq_zero_or_pos B with rfl | hpos
  · omega
  · exact hpos

/-- **Exchanging bytes** is multiplication. -/
theorem swap_eq_wrap (hB : m + 1 = B * B) (h : n ≤ m) :
    swap B n = wrap m (B * n) := by
  have hpos := base_pos hB
  have hdiv := Nat.div_add_mod n B
  have hhigh : n / B < B := Nat.div_lt_of_lt_mul (by omega)
  have hlow := Nat.mod_lt n hpos
  refine eq_wrap ?_ ?_ ?_
  · have hmul : (n % B + 1) * B ≤ B * B := Nat.mul_le_mul_right B hlow
    rw [Nat.succ_mul] at hmul
    rw [swap]
    omega
  · have hprod : B * n = m * (n / B) + swap B n := by
      calc B * n = B * (B * (n / B) + n % B) := by rw [hdiv]
        _ = B * B * (n / B) + n % B * B := by ring
        _ = m * (n / B) + swap B n := by rw [← hB, swap]; ring
    rw [hprod]
    exact (Nat.mul_add_mod _ _ _).symm
  · rw [swap, Nat.mul_eq_zero, Nat.add_eq_zero_iff, Nat.mul_eq_zero]
    constructor
    · rintro ⟨hmod, hquot⟩
      have hzero : n % B = 0 := by omega
      rw [hquot, hzero] at hdiv
      omega
    · rintro (h | rfl)
      · omega
      · simp

/-! ### Complements -/

/-- A number and the complement of its word come to the greatest word. -/
theorem wrap_add_compl (hm : 0 < m) (a : Nat) :
    wrap m (a + (m - wrap m a)) = m := by
  rw [← wrap_wrap_add hm, Nat.add_sub_cancel' (wrap_le hm)]
  exact wrap_of_le le_rfl

/-- What comes to the greatest word. -/
theorem wrap_eq_iff (hm : 0 < m) : wrap m n = m ↔ m ∣ n ∧ 0 < n := by
  constructor
  · intro h
    have hmod := wrap_modEq m n
    rw [h] at hmod
    refine ⟨(Nat.modEq_zero_iff_dvd.mp ((Nat.modEq_zero_iff_dvd.mpr
      (dvd_refl m)).symm.trans hmod).symm), Nat.pos_of_ne_zero ?_⟩
    rintro rfl
    rw [wrap_zero] at h
    omega
  · rintro ⟨hdvd, hpos⟩
    refine (eq_wrap le_rfl ?_ (by omega)).symm
    exact (Nat.modEq_zero_iff_dvd.mpr (dvd_refl m)).trans
      (Nat.modEq_zero_iff_dvd.mpr hdvd).symm

/-! ### Messages -/

section Messages

variable {l l' : List Nat}

theorem base_sq_modEq (hB : m + 1 = B * B) : B * B ≡ 1 [MOD m] := by
  rw [← hB]
  exact Nat.add_mod_left m 1

theorem base_pow_even_modEq (hB : m + 1 = B * B) (k : Nat) :
    B ^ (2 * k) ≡ 1 [MOD m] := by
  rw [Nat.pow_mul, Nat.pow_two]
  simpa using (base_sq_modEq hB).pow k

/-- A message of whole words in front of another one. -/
theorem ofDigits_append_modEq (hB : m + 1 = B * B)
    (heven : l.length % 2 = 0) :
    Nat.ofDigits B (l ++ l') ≡ Nat.ofDigits B l + Nat.ofDigits B l'
      [MOD m] := by
  have hlen : l.length = 2 * (l.length / 2) := by omega
  rw [Nat.ofDigits_append, hlen]
  simpa using ((base_pow_even_modEq hB (l.length / 2)).mul_right
    (Nat.ofDigits B l')).add_left (Nat.ofDigits B l)

/-- A message that ends within a word in front of another one. -/
theorem ofDigits_append_odd_modEq (hB : m + 1 = B * B)
    (hodd : l.length % 2 = 1) :
    Nat.ofDigits B (l ++ l') ≡ Nat.ofDigits B l + B * Nat.ofDigits B l'
      [MOD m] := by
  have hlen : l.length = 2 * (l.length / 2) + 1 := by omega
  rw [Nat.ofDigits_append, hlen, Nat.pow_succ, Nat.mul_assoc]
  simpa using ((base_pow_even_modEq hB (l.length / 2)).mul_right
    (B * Nat.ofDigits B l')).add_left (Nat.ofDigits B l)

/-- The sum of a message, its bytes exchanged if an odd number of them has
been summed. -/
def partialSum (B m : Nat) (l : List Nat) : Nat :=
  wrap m (B ^ l.length * Nat.ofDigits B l)

/-- A part of a message is added: the sum is folded, and its bytes are
exchanged if the part has an odd length. -/
def absorb (B m acc : Nat) (l : List Nat) : Nat :=
  let s := fold m (acc + wrap m (Nat.ofDigits B l))
  if l.length % 2 = 0 then s else swap B s

@[simp] theorem partialSum_nil : partialSum B m [] = 0 := rfl

theorem partialSum_le (hm : 0 < m) : partialSum B m l ≤ m := wrap_le hm

theorem absorb_le (hm : 0 < m) (hB : m + 1 = B * B) (ha : a ≤ m) :
    absorb B m a l ≤ m := by
  have hsum := wrap_le (n := Nat.ofDigits B l) hm
  rw [absorb, fold_eq_wrap (by omega)]
  split
  · exact wrap_le hm
  · rw [swap_eq_wrap hB (wrap_le hm)]
    exact wrap_le hm

theorem wrap_pow_mul (hm : 0 < m) (hB : m + 1 = B * B) (k n : Nat) :
    wrap m (B ^ (2 * k) * n) = wrap m n := by
  have hpos := base_pos hB
  refine wrap_congr hm ?_ ?_
  · simpa using (base_pow_even_modEq hB k).mul_right n
  · rw [Nat.mul_eq_zero]
    exact or_iff_right (Nat.pow_pos hpos).ne'

/-- One part more. -/
theorem absorb_partialSum (hm : 0 < m) (hB : m + 1 = B * B)
    (l l' : List Nat) :
    absorb B m (partialSum B m l) l' = partialSum B m (l ++ l') := by
  have hword : fold m (partialSum B m l + wrap m (Nat.ofDigits B l')) =
      wrap m (B ^ l.length * Nat.ofDigits B (l ++ l')) := by
    have htwo : l.length + l.length = 2 * l.length := by omega
    have hsum := Nat.add_le_add (partialSum_le (B := B) (l := l) hm)
      (wrap_le (n := Nat.ofDigits B l') hm)
    rw [fold_eq_wrap (by omega), partialSum, wrap_wrap_add hm,
      ← wrap_wrap_add hm (b := wrap m _), wrap_add_wrap hm, wrap_wrap_add hm,
      Nat.ofDigits_append, Nat.mul_add, ← Nat.mul_assoc, ← Nat.pow_add, htwo,
      ← wrap_add_wrap hm (b := B ^ (2 * l.length) * _),
      wrap_pow_mul hm hB, wrap_add_wrap hm]
  rw [absorb, hword, partialSum, List.length_append]
  split
  · next heven =>
    have hlen : l.length + l'.length = 2 * (l'.length / 2) + l.length := by
      omega
    rw [hlen, Nat.pow_add, Nat.mul_assoc, wrap_pow_mul hm hB]
  · next hodd =>
    have hlen : l.length + l'.length =
        2 * (l'.length / 2) + (l.length + 1) := by omega
    rw [swap_eq_wrap hB (wrap_le hm), wrap_mul_wrap hm, hlen, Nat.pow_add,
      Nat.mul_assoc, wrap_pow_mul hm hB, Nat.pow_succ, Nat.mul_comm _ B,
      Nat.mul_assoc]

/-- **A message in parts.**  It does not matter how it is cut. -/
theorem foldl_absorb (hm : 0 < m) (hB : m + 1 = B * B)
    (parts : List (List Nat)) :
    parts.foldl (absorb B m) 0 = partialSum B m parts.flatten := by
  suffices h : ∀ l, parts.foldl (absorb B m) (partialSum B m l) =
      partialSum B m (l ++ parts.flatten) from h []
  induction parts with
  | nil => simp
  | cons l' parts ih =>
    intro l
    rw [List.foldl_cons, absorb_partialSum hm hB, ih, List.flatten_cons,
      List.append_assoc]

/-- The sum itself, the bytes exchanged back. -/
theorem partialSum_unswap (hm : 0 < m) (hB : m + 1 = B * B) (l : List Nat) :
    (if l.length % 2 = 0 then partialSum B m l
      else swap B (partialSum B m l)) = wrap m (Nat.ofDigits B l) := by
  split
  · next heven =>
    have hlen : l.length = 2 * (l.length / 2) := by omega
    rw [partialSum, hlen, wrap_pow_mul hm hB]
  · next hodd =>
    have hlen : 1 + l.length = 2 * ((l.length + 1) / 2) := by omega
    rw [swap_eq_wrap hB (partialSum_le hm), partialSum, wrap_mul_wrap hm,
      ← Nat.mul_assoc, ← Nat.pow_succ', Nat.succ_eq_one_add, hlen,
      wrap_pow_mul hm hB]

/-- **One digit.**  Numbers that differ in one digit are not congruent. -/
theorem ofDigits_not_modEq (hB : m + 1 = B * B) (h1 : 1 < B) (ha : a < B)
    (hb : b < B) (hne : a ≠ b) :
    ¬ Nat.ofDigits B (l ++ a :: l') ≡ Nat.ofDigits B (l ++ b :: l')
      [MOD m] := by
  intro h
  rw [Nat.ofDigits_append, Nat.ofDigits_append, Nat.ofDigits_cons,
    Nat.ofDigits_cons] at h
  have hdigit := Nat.ModEq.add_left_cancel' _ h
  rw [Nat.mul_add, Nat.mul_add] at hdigit
  -- the power of the base is its own inverse
  have hinv (x : Nat) : B ^ l.length * (B ^ l.length * x) ≡ x [MOD m] := by
    rw [← Nat.mul_assoc, ← Nat.pow_add, ← Nat.two_mul]
    simpa using (base_pow_even_modEq hB l.length).mul_right x
  have hcancel := (Nat.ModEq.add_right_cancel' _ hdigit).mul_left
    (B ^ l.length)
  have hab : a ≡ b [MOD m] :=
    (hinv a).symm.trans (hcancel.trans (hinv b))
  have hlt : 2 * B ≤ B * B := Nat.mul_le_mul_right B h1
  exact hne (Nat.ModEq.eq_of_lt_of_lt hab (by omega) (by omega))

end Messages

end OnesComplement

end Roip
