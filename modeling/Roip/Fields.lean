/-
Roip/Fields.lean

The fields of a password change and their buffers.

The end of a value is searched by a loop that steps before it looks.  So the
first byte of a value is copied whatever it is: an empty value is read on into
what follows it.  Nothing compares the length of a value with the length of
its buffer.  The values of a submission are read faithfully if and only if
none is empty, and the three copies stay in their buffers if and only if each
value ends early enough (`fields_iff`).
-/
import Roip.PasswordChange

namespace Roip

variable {s : Httpd} {x : HttpCall} {old new confirm z : List UInt8}

/-! ### The copies -/

theorem copyField_isSome_iff (buf : CArray UInt8 16) {rq : List UInt8}
    {p q : Nat} : (copyField buf rq p q).isSome ↔ q - p ≤ 15 := by
  rw [Option.isSome_iff_exists]
  constructor
  · rintro ⟨a, ha⟩
    rw [copyField] at ha
    simp only [Option.bind_eq_bind, Option.bind_eq_some_iff] at ha
    obtain ⟨b, -, c, -, hset⟩ := ha
    exact Nat.le_of_lt_succ (CArray.set_eq_some_iff.mp hset).1
  · intro h
    obtain ⟨a, -, ha, -⟩ := copyField_cells buf rq h
    exact ⟨a, ha⟩

/-- What has been copied, and a zero behind it. -/
theorem cells_of_copyField {buf a : CArray UInt8 16} {rq : List UInt8}
    {p q : Nat} (h : copyField buf rq p q = some a) :
    ∃ rest, a.cells = bytesAt rq p (q - p) ++ 0 :: rest := by
  have hle : q - p ≤ 15 :=
    (copyField_isSome_iff _).mp (Option.isSome_iff_exists.mpr ⟨a, h⟩)
  obtain ⟨a', rest, ha', hcells⟩ := copyField_cells buf rq hle
  obtain rfl : a' = a := Option.some.inj (ha'.symm.trans h)
  exact ⟨rest, hcells⟩

/-- The first byte is copied whatever it is. -/
theorem copyField_head {buf a : CArray UInt8 16} {rq : List UInt8} {p q : Nat}
    (h : copyField buf rq p q = some a) (hpq : p < q) :
    a.cells.head? = some (byteAt rq p) := by
  obtain ⟨rest, hcells⟩ := cells_of_copyField h
  obtain ⟨k, hk⟩ := Nat.exists_eq_add_one_of_ne_zero (Nat.sub_ne_zero_of_lt hpq)
  rw [hcells, hk, bytesAt_succ]
  rfl

/-- The places of the three values, and the ends the searches find. -/
def fieldBounds (rq : List UInt8) (packetEnd : Nat) : List (Nat × Nat) :=
  let p₁ := findEquals rq packetEnd 17 + 1
  let p₂ := findEquals rq packetEnd p₁ + 1
  let p₃ := findEquals rq packetEnd p₂ + 1
  [(p₁, findAmpersand rq packetEnd p₁), (p₂, findAmpersand rq packetEnd p₂),
    (p₃, findSpace rq packetEnd p₃)]

/-- The lengths of the three copies. -/
def copyLengths (rq : List UInt8) (packetEnd : Nat) : List Nat :=
  (fieldBounds rq packetEnd).map fun b => b.2 - b.1

/-- The buffers hold the copies of what is between the bounds. -/
theorem readPasswords_eq_some_iff {rq : List UInt8} {n : Nat}
    {l l' : Passwords} : readPasswords rq n l = some l' ↔
      let p₁ := findEquals rq n 17 + 1
      let p₂ := findEquals rq n p₁ + 1
      let p₃ := findEquals rq n p₂ + 1
      copyField l.old rq p₁ (findAmpersand rq n p₁) = some l'.old ∧
        copyField l.new rq p₂ (findAmpersand rq n p₂) = some l'.new ∧
        copyField l.confirm rq p₃ (findSpace rq n p₃) = some l'.confirm := by
  rw [readPasswords]
  simp only [Option.bind_eq_bind, Option.bind_eq_some_iff, Option.some.injEq]
  constructor
  · rintro ⟨a, ha, b, hb, c, hc, rfl⟩
    exact ⟨ha, hb, hc⟩
  · rintro ⟨ha, hb, hc⟩
    exact ⟨_, ha, _, hb, _, hc, rfl⟩

theorem readPasswords_isSome_iff {rq : List UInt8} {n : Nat} {l : Passwords} :
    (readPasswords rq n l).isSome ↔ ∀ k ∈ copyLengths rq n, k ≤ 15 := by
  rw [Option.isSome_iff_exists]
  simp only [copyLengths, fieldBounds, List.map_cons, List.map_nil,
    List.forall_mem_cons, List.not_mem_nil, false_implies, implies_true,
    and_true, readPasswords_eq_some_iff]
  constructor
  · rintro ⟨l', ha, hb, hc⟩
    have hle {buf a : CArray UInt8 16} {p q : Nat}
        (h : copyField buf rq p q = some a) : q - p ≤ 15 :=
      (copyField_isSome_iff buf).mp (Option.isSome_iff_exists.mpr ⟨a, h⟩)
    exact ⟨hle ha, hle hb, hle hc⟩
  · rintro ⟨ha, hb, hc⟩
    obtain ⟨a, ha⟩ := Option.isSome_iff_exists.mp
      ((copyField_isSome_iff l.old).mpr ha)
    obtain ⟨b, hb⟩ := Option.isSome_iff_exists.mp
      ((copyField_isSome_iff l.new).mpr hb)
    obtain ⟨c, hc⟩ := Option.isSome_iff_exists.mp
      ((copyField_isSome_iff l.confirm).mpr hc)
    exact ⟨⟨a, b, c⟩, ha, hb, hc⟩

/-- A password change is defined if and only if the copies are bounded. -/
theorem step_passSet_isSome_iff (hs : s.st = .passSent)
    (hr : x.request = some .passSet) : (httpStep s x).res.isSome ↔
      ∀ k ∈ copyLengths x.rq x.payload.length, k ≤ 15 := by
  rw [← readPasswords_isSome_iff (l := x.env.locals)]
  show _ ↔ x.passwords.isSome
  have h := answer_answers s x .passSet
  rw [httpStep_of_request hr, Option.isSome_map]
  generalize (x.answer s .passSet).res = u at h
  generalize (x.answer s .passSet).out = o at h
  cases h with
  | refused _ h => exact absurd hs h
  | overflow _ hl =>
    rw [hl]
    exact iff_of_false Bool.false_ne_true Bool.false_ne_true
  | changed _ hl _ _ => exact iff_of_true rfl (hl ▸ rfl)
  | unsuccessful _ hl _ => exact iff_of_true rfl (hl ▸ rfl)

/-! ### How long a value is -/

/-- The first `c` stands early, or the end does. -/
theorem length_takeWhile_ne_le_iff {l : List UInt8} {c : UInt8} {n : Nat} :
    (l.takeWhile (· ≠ c)).length ≤ n ↔ l.length ≤ n ∨ c ∈ l.take (n + 1) := by
  induction l generalizing n with
  | nil => simp
  | cons x l ih =>
    by_cases hx : x = c
    · simp [hx]
    · rw [List.takeWhile_cons_of_pos (by simpa using hx), List.length_cons,
        List.take_succ_cons, List.mem_cons, or_iff_right (Ne.symm hx)]
      rcases n with - | n
      · simp
      · rw [Nat.succ_le_succ_iff, ih, List.length_cons, Nat.succ_le_succ_iff]

/-- What is behind the next `=`, the first byte not being looked at. -/
def valueFrom (w : List UInt8) : List UInt8 :=
  ((w.drop 1).dropWhile (· ≠ 61)).drop 1

/-- A value that begins with the text `v` has at most 15 bytes: the payload
ends, or one of the 15 bytes behind the first one is `c`. -/
def EndsBy (c : UInt8) (v : List UInt8) : Prop :=
  v.length ≤ 15 ∨ c ∈ (v.drop 1).take 15

/-- The three values of the payload `w` end early enough. -/
def ValuesEnd (w : List UInt8) : Prop :=
  let v₁ := valueFrom (w.drop 17)
  let v₂ := valueFrom v₁
  let v₃ := valueFrom v₂
  EndsBy 38 v₁ ∧ EndsBy 38 v₂ ∧ EndsBy 32 v₃

theorem drop_find_eq_valueFrom (w b : List UInt8) (p : Nat) :
    w.drop (findEquals (w ++ b) w.length p + 1) = valueFrom (w.drop p) := by
  have hsplit := List.takeWhile_append_dropWhile (p := (· ≠ 61))
    (l := w.drop (p + 1))
  have hnext : (w.drop p).drop 1 = w.drop (p + 1) := List.drop_drop
  rw [valueFrom, hnext, ← drop_of_append hsplit.symm, List.drop_drop,
    findEquals, find_payload]

theorem find_sub_le_iff (w b : List UInt8) (c : UInt8) (p : Nat) :
    find (w ++ b) c w.length p - p ≤ 15 ↔ EndsBy c (w.drop p) := by
  rw [find_payload, EndsBy, List.length_drop, List.drop_drop]
  have h := length_takeWhile_ne_le_iff (l := w.drop (p + 1)) (c := c) (n := 14)
  rw [List.length_drop] at h
  rw [show w.length - p ≤ 15 ↔ w.length - (p + 1) ≤ 14 by omega, ← h]
  omega

/-- The copies of a payload are bounded if and only if its values end. -/
theorem copyLengths_le_iff (w b : List UInt8) :
    (∀ k ∈ copyLengths (w ++ b) w.length, k ≤ 15) ↔ ValuesEnd w := by
  simp only [copyLengths, fieldBounds, List.map_cons, List.map_nil,
    List.forall_mem_cons, List.not_mem_nil, false_implies, implies_true,
    and_true, findAmpersand, findSpace, find_sub_le_iff,
    drop_find_eq_valueFrom, ValuesEnd]

/-! ### The rule -/

/-- A value a browser sends as it is; it may be empty. -/
structure Sendable (v : List UInt8) : Prop where
  length_le : v.length ≤ 15
  no_equals : 61 ∉ v
  no_ampersand : 38 ∉ v
  no_space : 32 ∉ v
  no_zero : 0 ∉ v

theorem Sendable.plain {v : List UInt8} (h : Sendable v) (hne : v ≠ []) :
    Plain v :=
  ⟨hne, h.length_le, h.no_equals, h.no_ampersand, h.no_space, h.no_zero⟩

/-- The three buffers hold the values submitted. -/
def FieldsRead (x : HttpCall) (old new confirm : List UInt8) : Prop :=
  ∃ l, x.passwords = some l ∧ cstr l.old.cells = old ∧
    cstr l.new.cells = new ∧ cstr l.confirm.cells = confirm

/-- What is read is not empty unless a zero stands in its place. -/
theorem byteAt_of_copyField {buf a : CArray UInt8 16} {rq : List UInt8}
    {p q : Nat} (h : copyField buf rq p q = some a) (hpq : p < q)
    (hnil : cstr a.cells = []) : byteAt rq p = 0 := by
  have hhead := copyField_head h hpq
  rcases hcells : a.cells with - | ⟨c, rest⟩
  · rw [hcells] at hhead
    cases hhead
  · rw [hcells, List.head?_cons, Option.some.injEq] at hhead
    rw [hcells, cstr, List.takeWhile_eq_nil_iff] at hnil
    have h0 := hnil (Nat.succ_pos _)
    rw [← hhead]
    simpa using h0

/-- An empty value is not read as such: the byte behind it is copied. -/
theorem ne_nil_of_copied {w b v y : List UInt8} {c : UInt8} {p : Nat}
    {buf a : CArray UInt8 16} (hw : w.drop p = v ++ c :: y) (hc : c ≠ 0)
    (h : copyField buf (w ++ b) p (find (w ++ b) c w.length p) = some a)
    (hv : cstr a.cells = v) : v ≠ [] := by
  rintro rfl
  have hbyte := byteAt_of_copyField h (lt_find _ _ _ _) hv
  have hp : p < w.length := by
    by_contra hlt
    rw [List.drop_of_length_le (Nat.le_of_not_lt hlt)] at hw
    cases hw
  rw [byteAt_append_left hp, ← Nat.add_zero p, ← byteAt_drop, hw] at hbyte
  exact hc hbyte

/-- Values that are read faithfully are not empty. -/
theorem ne_nil_of_fieldsRead (ho : Sendable old) (hn : Sendable new)
    (hx : x.p = some (changeRequest old new confirm z))
    (h : FieldsRead x old new confirm) :
    old ≠ [] ∧ new ≠ [] ∧ confirm ≠ [] := by
  obtain ⟨l, hl, hold, hnew, hconfirm⟩ := h
  rw [HttpCall.passwords, HttpCall.rq, HttpCall.payload, hx] at hl
  obtain ⟨hcopy₁, hcopy₂, hcopy₃⟩ := readPasswords_eq_some_iff.mp hl
  have hline := changeRequest_drop old new confirm z
  simp only [Option.getD_some] at hcopy₁ hcopy₂ hcopy₃
  generalize changeRequest old new confirm z = w at hline hcopy₁ hcopy₂ hcopy₃
  generalize x.env.behind = b at hcopy₁ hcopy₂ hcopy₃
  -- `p₁`, `p₂` and `p₃` are the places of the three values
  have h₁ := drop_findEquals (b := b) hline (by decide) (by decide)
  generalize findEquals (w ++ b) w.length 17 + 1 = p₁ at h₁ hcopy₁ hcopy₂ hcopy₃
  have ho' : old ≠ [] := ne_nil_of_copied h₁ (by decide) hcopy₁ hold
  have h₂ := (value_step (b := b) l.old (ho.plain ho') (by decide) h₁).2
  generalize findEquals (w ++ b) w.length p₁ + 1 = p₂ at h₂ hcopy₂ hcopy₃
  have hn' : new ≠ [] := ne_nil_of_copied h₂ (by decide) hcopy₂ hnew
  have h₃ := (value_step (b := b) l.new (hn.plain hn') (by decide) h₂).2
  exact ⟨ho', hn', ne_nil_of_copied h₃ (by decide) hcopy₃ hconfirm⟩

/-- **When the fields are read and the copies bounded.**  In the state
`PASS_SENT` the values of a submission are read faithfully if and only if none
of them is empty, and the copies made for a payload stay in their buffers, the
call being defined, if and only if the three values of the payload end early
enough. -/
theorem fields_iff {s : Httpd} {x : HttpCall} (hs : s.st = .passSent) :
    (∀ old new confirm z, Sendable old → Sendable new → Sendable confirm →
      x.p = some (changeRequest old new confirm z) →
      (FieldsRead x old new confirm ↔ old ≠ [] ∧ new ≠ [] ∧ confirm ≠ [])) ∧
    ∀ payload, x.p = some payload → x.request = some .passSet →
      ((∀ k ∈ copyLengths x.rq x.payload.length, k ≤ 15) ↔
        ValuesEnd payload) ∧
      ((httpStep s x).res.isSome ↔ ValuesEnd payload) := by
  constructor
  · intro old new confirm z ho hn hc hx
    constructor
    · exact ne_nil_of_fieldsRead ho hn hx
    · rintro ⟨ho', hn', hc'⟩
      -- none is empty: the stepping loops stop at the separators of the form
      have hp := ho.plain ho'
      obtain ⟨l, r₁, r₂, r₃, hl, hold, hnew, hconfirm⟩ :=
        readPasswords_changeRequest hp (hn.plain hn') (hc.plain hc') z
          x.env.behind x.env.locals
      refine ⟨l, ?_, ?_, ?_, ?_⟩
      · rw [HttpCall.passwords, HttpCall.rq, HttpCall.payload, hx]
        exact hl
      · rw [hold, cstr_append_zero ho.no_zero]
      · rw [hnew, cstr_append_zero hn.no_zero]
      · rw [hconfirm, cstr_append_zero hc.no_zero]
  · intro payload hx hr
    have hpayload : x.payload = payload := by
      rw [HttpCall.payload, hx, Option.getD_some]
    rw [step_passSet_isSome_iff hs hr, HttpCall.rq, hpayload,
      copyLengths_le_iff]
    exact ⟨Iff.rfl, Iff.rfl⟩

instance (v : List UInt8) : Decidable (Sendable v) :=
  decidable_of_iff (v.length ≤ 15 ∧ 61 ∉ v ∧ 38 ∉ v ∧ 32 ∉ v ∧ 0 ∉ v)
    ⟨fun ⟨hl, he, ha, hs, hz⟩ => ⟨hl, he, ha, hs, hz⟩,
      fun h => ⟨h.length_le, h.no_equals, h.no_ampersand, h.no_space,
        h.no_zero⟩⟩

/-- From `pw` to `new`. -/
theorem fields_iff_pw : FieldsRead (changeCall "pw" "new" "new") (bytesOf "pw")
    (bytesOf "new") (bytesOf "new") :=
  ((fields_iff (s := { Httpd.boot flashWithPassword with st := .passSent })
    rfl).1 _ _ _ (bytesOf "1.0") (by decide) (by decide) (by decide) rfl).mpr
    (by decide)

/-- Without an old password something else is read in its place, and one of 16
bytes overruns its buffer. -/
theorem not_fields :
    (¬ ∀ (s : Httpd) (x : HttpCall) (old new confirm z : List UInt8),
      s.st = .passSent → Sendable old → Sendable new → Sendable confirm →
      x.p = some (changeRequest old new confirm z) →
      FieldsRead x old new confirm) ∧
    ¬ ∀ (s : Httpd) (x : HttpCall), s.st = .passSent →
      x.request = some .passSet →
      ∀ k ∈ copyLengths x.rq x.payload.length, k ≤ 15 := by
  constructor
  · intro h
    have hread := h { Httpd.boot flashWithPassword with st := .passSent }
      (changeCall "" "b" "b") _ _ _ (bytesOf "1.0") rfl (by decide)
      (by decide) (by decide) rfl
    exact (ne_nil_of_fieldsRead (by decide) (by decide) rfl hread).1 rfl
  · intro h
    have hle := h { Httpd.boot flashWithPassword with st := .passSent }
      (changeCall "0123456789abcdef" "b" "b") rfl
      (request_changeRequest rfl) 16 (by decide +kernel)
    exact absurd hle (by decide)

end Roip
