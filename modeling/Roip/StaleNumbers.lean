/-
Roip/StaleNumbers.lean

Rows of numbers in a payload.

`strtoul` knows nothing of the end of the payload.  A number that reaches it
is read on into what lies behind, and the numbers that follow are all read
from there.  So the octets of a configuration are determined by the payload if
and only if all numbers end inside it; the last one may also be so large that
no further digit changes the octet (`octetsDecided_iff`).
-/
import Roip.Httpd

namespace Roip

variable {w : List UInt8}

/-- The end of a search does not depend on what is behind. -/
theorem find_stale (w b : List UInt8) (c : UInt8) (p : Nat) :
    find (w ++ b) c w.length p = find w c w.length p := by
  have h := find_payload w [] c p
  rw [List.append_nil] at h
  rw [find_payload, h]

/-! ### Numbers -/

/-- The byte that is stored of a number. -/
def octetOf (u : List UInt8) : UInt8 := ((strtoul u).1 &&& 0xFF).toUInt8

/-- The digits of the number in front. -/
def numberDigits (u : List UInt8) : List UInt8 :=
  let number := u.dropWhile isspace
  let sign := if number.head? = some 43 ∨ number.head? = some 45 then 1 else 0
  (number.drop sign).takeWhile isdigit

/-- A number so large that further digits change nothing. -/
def Saturated (u : List UInt8) : Prop :=
  2 ^ 32 ≤ 10 * digitsValue (numberDigits u) ∧ octetOf u = 255

/-- The number at `p` ends inside the payload `w`. -/
def EndsInside (w : List UInt8) (p : Nat) : Prop :=
  p + strtoulScan (w.drop p) < w.length

/-- The payload determines `n` octets from `p` on: all numbers end inside; the
last one may also be too large for more digits to matter. -/
def OctetsDecided (w : List UInt8) : Nat → Nat → Prop
  | 0, _ => True
  | 1, p => EndsInside w p ∨ Saturated (w.drop p)
  | n + 2, p => EndsInside w p ∧ OctetsDecided w (n + 1)
      (findEquals w w.length (p + (strtoul (w.drop p)).2) + 1)

theorem numberDigits_eq {u spaces sign digits rest : List UInt8}
    (h : Numeral u spaces sign digits rest) : numberDigits u = digits := by
  have hdrop : u.dropWhile isspace = sign ++ (digits ++ rest) := by
    have hsplit := List.takeWhile_append_dropWhile (p := isspace) (l := u)
    rw [h.takeWhile_isspace] at hsplit
    exact List.append_cancel_left (hsplit.trans h.split)
  have hsign : (if sign = [43] ∨ sign = [45] then 1 else 0) = sign.length := by
    rcases h.isSign with rfl | rfl | rfl <;> rfl
  rw [numberDigits, hdrop]
  simp only [h.head_number.1, h.head_number.2, hsign, List.drop_left]
  exact takeWhile_append_of_head h.isdigit h.digits_end

theorem toNat_octet_value (v : UInt32) :
    (v &&& 0xFF).toUInt8.toNat = v.toNat % 2 ^ 8 := by
  have h255 : (0xFF : UInt32).toNat = 2 ^ 8 - 1 := rfl
  rw [UInt32.toNat_toUInt8, UInt32.toNat_and, h255,
    Nat.and_two_pow_sub_one_eq_mod, Nat.mod_mod]

theorem octetOf_numeral {u spaces sign digits rest : List UInt8}
    (h : Numeral u spaces sign digits rest) (hne : digits ≠ []) :
    octetOf u = (numeralValue sign digits &&& 0xFF).toUInt8 := by
  rw [octetOf, h.strtoul_eq.1, if_neg hne]

/-- Numbers that follow each other have different last octets. -/
theorem octet_succ_ne {sign ds es : List UInt8}
    (hv : digitsValue es = digitsValue ds + 1)
    (hlt : digitsValue ds + 1 < 2 ^ 32) :
    (numeralValue sign es &&& 0xFF).toUInt8 ≠
      (numeralValue sign ds &&& 0xFF).toUInt8 := by
  intro heq
  have hds : ¬ 2 ^ 32 ≤ digitsValue ds := by omega
  have hes : ¬ 2 ^ 32 ≤ digitsValue es := by omega
  have hnat := congrArg UInt8.toNat heq
  rw [toNat_octet_value, toNat_octet_value, numeralValue, numeralValue,
    if_neg hes, if_neg hds, hv] at hnat
  split at hnat
  · have hsize : UInt32.size = 2 ^ 32 := rfl
    rw [UInt32.toNat_neg, UInt32.toNat_neg, UInt32.toNat_ofNat',
      UInt32.toNat_ofNat', hsize] at hnat
    omega
  · rw [UInt32.toNat_ofNat', UInt32.toNat_ofNat'] at hnat
    omega

theorem octet_of_large {sign ds : List UInt8}
    (h : 2 ^ 32 ≤ digitsValue ds) :
    (numeralValue sign ds &&& 0xFF).toUInt8 = 255 := by
  rw [numeralValue, if_pos h]
  rfl

theorem digitsValue_concat (ds : List UInt8) (d : UInt8) :
    digitsValue (ds ++ [d]) = 10 * digitsValue ds + (d.toNat - 48) := by
  rw [digitsValue, List.foldl_append]
  rfl

/-- One digit more makes a number at least ten times as large. -/
theorem le_digitsValue_append (ds : List UInt8) {es : List UInt8}
    (hes : es ≠ []) : 10 * digitsValue ds ≤ digitsValue (ds ++ es) := by
  induction es using List.reverseRecOn with
  | nil => exact absurd rfl hes
  | append_singleton es e ih =>
    rw [← List.append_assoc, digitsValue_concat]
    rcases es with - | ⟨d, es⟩
    · rw [List.append_nil]
      exact Nat.le_add_right _ _
    · have h := ih (List.cons_ne_nil d es)
      omega

/-- A text that is all number. -/
theorem octet_cut {u spaces sign digits : List UInt8}
    (h : Numeral u spaces sign digits [])
    (hsame : ∀ e, octetOf (u ++ e) = octetOf u) : Saturated u := by
  have hmore (d : UInt8) (hd : isdigit d = true) : Numeral (u ++ [d]) spaces
      sign (digits ++ [d]) [] := by
    have hdigit : ∀ c ∈ [d], isdigit c = true := by simpa using hd
    exact h.append hdigit (by simp) (by rintro c ⟨⟩)
  have h48 := hmore 48 rfl
  have h49 := hmore 49 rfl
  have hv48 := digitsValue_concat digits 48
  have hv49 := digitsValue_concat digits 49
  have heq := (hsame [49]).trans (hsame [48]).symm
  rw [octetOf_numeral h49 (by simp), octetOf_numeral h48 (by simp)] at heq
  -- the digits 0 and 1 would give different octets
  have hlarge : 2 ^ 32 ≤ 10 * digitsValue digits := by
    by_contra hlt
    have h1 : digitsValue (digits ++ [48]) + 1 < 2 ^ 32 := by
      rw [hv48]
      show 10 * digitsValue digits + 0 + 1 < 2 ^ 32
      omega
    refine octet_succ_ne ?_ h1 heq
    rw [hv48, hv49]
    rfl
  constructor
  · rw [numberDigits_eq h]
    exact hlarge
  · rw [← hsame [48], octetOf_numeral h48 (by simp)]
    apply octet_of_large
    rw [hv48]
    exact Nat.le_trans hlarge (Nat.le_add_right _ _)

theorem octet_saturated {u spaces sign digits : List UInt8}
    (h : Numeral u spaces sign digits []) (hsat : Saturated u)
    (e : List UInt8) : octetOf (u ++ e) = octetOf u := by
  obtain ⟨hlarge, h255⟩ := hsat
  rw [numberDigits_eq h] at hlarge
  have hne : digits ≠ [] := by
    rintro rfl
    exact absurd hlarge (by decide)
  have happ : Numeral (u ++ (e.takeWhile isdigit ++ e.dropWhile isdigit)) spaces
      sign (digits ++ e.takeWhile isdigit) (e.dropWhile isdigit) :=
    h.append (fun c hc => List.mem_takeWhile_imp hc)
      (fun hnil => hne (List.append_eq_nil_iff.mp hnil).1) head?_dropWhile_not
  rw [List.takeWhile_append_dropWhile] at happ
  by_cases he : e.takeWhile isdigit = []
  · rw [he, List.append_nil] at happ
    rw [octetOf_numeral happ hne, octetOf_numeral h hne]
  · rw [h255, octetOf_numeral happ fun hnil =>
      hne (List.append_eq_nil_iff.mp hnil).1]
    exact octet_of_large (Nat.le_trans hlarge (le_digitsValue_append digits he))

/-! ### Rows of numbers -/

/-- A number that does not end inside is all that is left of the payload. -/
theorem numeral_of_not_endsInside {p : Nat} (h : ¬ EndsInside w p) :
    ∃ spaces sign digits, Numeral (w.drop p) spaces sign digits [] := by
  obtain ⟨spaces, sign, digits, rest, hn⟩ := exists_numeral (w.drop p)
  rw [EndsInside, hn.strtoul_eq.2] at h
  have hlen := congrArg List.length hn.split
  simp only [List.length_drop, List.length_append] at hlen
  obtain rfl : rest = [] := List.length_eq_zero_iff.mp (by omega)
  exact ⟨spaces, sign, digits, hn⟩

/-- There is no `=` in a number. -/
theorem notMem_numeral {u spaces sign digits : List UInt8}
    (h : Numeral u spaces sign digits []) : 61 ∉ u := by
  intro hmem
  rw [h.split, List.append_nil, List.mem_append, List.mem_append] at hmem
  rcases hmem with hmem | hmem | hmem
  · exact absurd (h.isspace 61 hmem) (by decide)
  · rcases h.isSign with rfl | rfl | rfl
    · cases hmem
    · exact absurd hmem (by decide)
    · exact absurd hmem (by decide)
  · exact absurd (h.isdigit 61 hmem) (by decide)

/-- Behind a number that does not end inside there is no next one inside. -/
theorem length_lt_next {p q : Nat} (h : ¬ EndsInside w p) (hpq : p ≤ q) :
    w.length < findEquals w w.length q + 1 := by
  obtain ⟨spaces, sign, digits, hn⟩ := numeral_of_not_endsInside h
  have hno : 61 ∉ w.drop (q + 1) := by
    intro hmem
    have hdrop : w.drop (q + 1) = (w.drop p).drop (q + 1 - p) := by
      rw [List.drop_drop]
      congr 1
      omega
    rw [hdrop] at hmem
    exact notMem_numeral hn (List.mem_of_mem_drop hmem)
  have hfind := find_payload w [] 61 q
  rw [List.append_nil, takeWhile_ne_of_not_mem hno, List.length_drop] at hfind
  rw [findEquals, hfind]
  omega

/-- What a pointer sees of a text that begins where the pointer is, or at the
end of the payload. -/
theorem drop_pad (w e : List UInt8) (p : Nat) :
    (w ++ (List.replicate (p - w.length) 0 ++ e)).drop p = w.drop p ++ e := by
  have hlen : p ≤ (w ++ List.replicate (p - w.length) (0 : UInt8)).length := by
    rw [List.length_append, List.length_replicate]
    omega
  rw [← List.append_assoc, List.drop_append_of_le_length hlen]
  rcases Nat.le_total p w.length with hle | hle
  · rw [Nat.sub_eq_zero_of_le hle, List.replicate_zero, List.append_nil]
  · rw [List.drop_append, List.drop_of_length_le (l := List.replicate _ _)
      (by rw [List.length_replicate]), List.append_nil]

/-- With a zero behind it a number is read as if the payload were all there
is. -/
theorem strtoul_zeros {p m : Nat} (hp : p < w.length + m) (hm : 0 < m)
    (y : List UInt8) :
    strtoul ((w ++ (List.replicate m 0 ++ y)).drop p) =
      strtoul (w.drop p) := by
  obtain ⟨i, rfl⟩ : ∃ i, m = (p - w.length) + (i + 1) :=
    ⟨m - (p - w.length) - 1, by omega⟩
  rw [List.replicate_add, List.replicate_succ, List.append_assoc, drop_pad,
    List.cons_append, strtoul_append_zero]

theorem readOctets_succ (rq : List UInt8) (n k p : Nat) :
    readOctets rq n (k + 1) p = octetOf (rq.drop p) ::
      readOctets rq n k (findEquals rq n (p + (strtoul (rq.drop p)).2) + 1) :=
  rfl

/-- A number that does not end inside, with another one to be read behind
it. -/
theorem readOctets_cut {p : Nat} (h : ¬ EndsInside w p) (n : Nat) :
    ∃ b, readOctets (w ++ b) w.length (n + 2) p ≠
      readOctets (w ++ []) w.length (n + 2) p := by
  have hnext := length_lt_next h (Nat.le_add_right p (strtoul (w.drop p)).2)
  have hstep (b : List UInt8) (hb : strtoul ((w ++ b).drop p) =
      strtoul (w.drop p)) : (readOctets (w ++ b) w.length (n + 2) p)[1]? =
      some (octetOf ((w ++ b).drop
        (findEquals w w.length (p + (strtoul (w.drop p)).2) + 1))) := by
    rw [readOctets_succ, readOctets_succ, hb, findEquals, find_stale]
    rfl
  have hp : p < find w 61 w.length (p + (strtoul (w.drop p)).2) + 1 :=
    Nat.lt_succ_of_le (Nat.le_trans (Nat.le_add_right p _)
      (Nat.le_of_lt (lt_find _ _ _ _)))
  rw [findEquals] at hnext
  simp only [findEquals] at hstep
  generalize find w 61 w.length (p + (strtoul (w.drop p)).2) + 1 = q
    at hnext hstep hp
  refine ⟨List.replicate (q - w.length) 0 ++ [49], ?_⟩
  intro heq
  have h1 := hstep (List.replicate (q - w.length) 0 ++ [49])
    (strtoul_zeros (by omega) (by omega) _)
  have h0 := hstep [] (by rw [List.append_nil])
  -- the next number is read from behind: 1 with one memory, 0 with the other
  rw [heq, h0, drop_pad, List.append_nil,
    List.drop_of_length_le (Nat.le_of_lt hnext)] at h1
  exact absurd h1 (by decide)

/-- A number that ends inside does not depend on what is behind. -/
theorem EndsInside.strtoul_eq {p : Nat} (h : EndsInside w p)
    (b : List UInt8) : strtoul ((w ++ b).drop p) = strtoul (w.drop p) := by
  rw [EndsInside] at h
  have hp : p ≤ w.length := by omega
  have hnum := strtoul_inside (u := w.drop p) (b := []) (y := b)
    (by rw [List.append_nil, List.length_drop]; omega)
  rw [List.drop_append_of_le_length hp, hnum, List.append_nil]

/-- When the payload determines the last octet. -/
theorem lastOctet_iff (p : Nat) :
    (∀ b, readOctets (w ++ b) w.length 1 p =
      readOctets (w ++ []) w.length 1 p) ↔
      EndsInside w p ∨ Saturated (w.drop p) := by
  by_cases hin : EndsInside w p
  · refine iff_of_true (fun b => ?_) (Or.inl hin)
    rw [readOctets_succ, readOctets_succ, octetOf, octetOf,
      hin.strtoul_eq, hin.strtoul_eq]
    rfl
  · obtain ⟨spaces, sign, digits, hn⟩ := numeral_of_not_endsInside hin
    constructor
    · intro hsame
      refine Or.inr (octet_cut hn fun e => ?_)
      have he := hsame (List.replicate (p - w.length) 0 ++ e)
      rw [readOctets_succ, readOctets_succ, drop_pad, List.append_nil] at he
      exact (List.cons.inj he).1
    · rintro (hyes | hsat) b
      · exact absurd hyes hin
      · have hp : p ≤ w.length := by
          by_contra hlt
          rw [Saturated, List.drop_of_length_le (by omega)] at hsat
          exact absurd hsat.1 (by decide)
        rw [readOctets_succ, readOctets_succ,
          List.drop_append_of_le_length hp, octet_saturated hn hsat b,
          List.append_nil]
        rfl

/-- **When the payload determines the octets.** -/
theorem octetsDecided_iff (n p : Nat) :
    (∀ b, readOctets (w ++ b) w.length (n + 1) p =
      readOctets (w ++ []) w.length (n + 1) p) ↔
      OctetsDecided w (n + 1) p := by
  induction n generalizing p with
  | zero => exact lastOctet_iff p
  | succ n ih =>
    by_cases hin : EndsInside w p
    · have hstep (b : List UInt8) :
          readOctets (w ++ b) w.length (n + 2) p = octetOf (w.drop p) ::
            readOctets (w ++ b) w.length (n + 1)
              (findEquals w w.length (p + (strtoul (w.drop p)).2) + 1) := by
        rw [readOctets_succ, octetOf, hin.strtoul_eq, findEquals,
          find_stale]
        rfl
      rw [OctetsDecided, and_iff_right hin, ← ih]
      refine forall_congr' fun b => ?_
      rw [hstep b, hstep [], List.cons.injEq, and_iff_right rfl]
    · obtain ⟨b, hb⟩ := readOctets_cut hin n
      exact iff_of_false (fun h => hb (h b)) fun h => hin h.1

end Roip
