/-
Roip/FieldLine.lean

Whether the fields of an event come from its own line.

`get_value` counts every character that is no digit as a separator, line ends
included, and goes on to the end of the text.  If the line of an event has too
few segments, the segment at the place asked for is therefore taken from the
lines behind it; if they have too few as well, the loop ends without a length.
The character behind the prefix is passed over unseen, also when it is the
newline.

The segment of the own line is nevertheless what is returned when that line
has enough segments, or when what the following lines have at this place
happens to be empty (`readsSegment_own_iff`).
-/
import Roip.Cursor
import Roip.Lib.CString

namespace Roip

/-! ### The line of an event -/

/-- What is left of the line an event stands in, from the cursor on; nothing,
if the cursor has jumped over the newline.  `m` is the text. -/
def ownLine (m : List UInt8) (c : Nat) : List UInt8 :=
  if m[c - 1]? = some 10 then [] else (m.drop c).takeWhile (· ≠ 10)

/-- What is left of the text, without its last newline. -/
def restOfText (m : List UInt8) (c : Nat) : List UInt8 :=
  (m.drop c).dropLast

/-- The line has the segment, or the text has it and it is empty. -/
def FieldAt (m : List UInt8) (c place : Nat) : Prop :=
  place - 1 ≤ separators (ownLine m c) ∨
    place - 1 ≤ separators (restOfText m c) ∧
      segment place (restOfText m c) = []

instance (m : List UInt8) (c place : Nat) : Decidable (FieldAt m c place) :=
  inferInstanceAs (Decidable (_ ∨ _))

/-! ### Segments that are missing -/

theorem skipSegments_nil (k : Nat) : skipSegments k [] = [] := by
  induction k with
  | zero => rfl
  | succ k ih => exact ih

theorem skipSegments_eq_nil {k : Nat} {x : List UInt8}
    (h : separators x < k) : skipSegments k x = [] := by
  induction k generalizing x with
  | zero => exact absurd h (Nat.not_lt_zero _)
  | succ k ih =>
    rw [skipSegments]
    by_cases hnone : separators x = 0
    · have hdig : x.dropWhile isDigit = [] :=
        List.dropWhile_eq_nil_iff.mpr (isDigit_of_mem hnone)
      rw [hdig]
      exact skipSegments_nil k
    · have := separators_split hnone
      exact ih (by omega)

/-- A text has no segment behind its last one. -/
theorem segment_eq_nil {x : List UInt8} {place : Nat}
    (h : separators x < place - 1) : segment place x = [] := by
  rw [segment, skipSegments_eq_nil h]
  rfl

/-! ### What `get_value` reads -/

/-- The rest of a text and the rest of the line in it. -/
theorem restOfText_text (x : List UInt8) {c : Nat} :
    restOfText (x ++ [10]) c = x.drop c := by
  unfold restOfText
  by_cases hc : c ≤ x.length
  · rw [List.drop_append_of_le_length hc, List.dropLast_concat]
  · rw [List.drop_of_length_le (by simp; omega),
      List.drop_of_length_le (by omega)]
    rfl

/-- The own line of an event ends at a newline of the text, if the cursor has
not jumped over it. -/
theorem ownLine_cases (x : List UInt8) {c : Nat} (h0 : 0 < c)
    (hc : c ≤ x.length + 1) :
    ownLine (x ++ [10]) c = [] ∨
      ∃ r, (x ++ [10]).drop c = ownLine (x ++ [10]) c ++ 10 :: r := by
  unfold ownLine
  split
  · exact Or.inl rfl
  · next hjump =>
    right
    have hlt : c ≤ x.length := by
      by_contra hend
      obtain rfl : c = x.length + 1 := by omega
      exact hjump (by simp)
    have hmem : 10 ∈ (x ++ [10]).drop c := by
      rw [List.drop_append_of_le_length hlt]
      exact List.mem_append_right _ (List.mem_singleton.mpr rfl)
    obtain ⟨l, r, hsplit, hl⟩ := List.eq_append_cons_of_mem hmem
    exact ⟨r, by rw [takeWhile_ne_of_split hsplit hl, ← hsplit]⟩

theorem segment_length_le (place : Nat) (x : List UInt8) :
    (segment place x).length ≤ x.length := by
  have hskip : ∀ (k : Nat) (x : List UInt8),
      (skipSegments k x).length ≤ x.length := by
    intro k
    induction k with
    | zero => exact fun x => Nat.le_refl _
    | succ k ih =>
      intro x
      refine (ih _).trans ?_
      rw [List.length_drop]
      exact (Nat.sub_le _ _).trans (List.dropWhile_suffix _).length_le
  exact (List.takeWhile_prefix _).length_le.trans (hskip _ _)

section Reads

variable {x : List UInt8} (r : List UInt8) {c place : Nat}

/-- A segment of the own line is read. -/
theorem readsSegment_ownLine (hx : x.length < 256) (h0 : 0 < c)
    (hc : c ≤ x.length + 1) (h2 : 2 ≤ place) (h256 : place ≤ 256)
    (hown : place - 1 ≤ separators (ownLine (x ++ [10]) c)) :
    ReadsSegment ((x ++ 10 :: r).drop c) (x.length + 1 - c)
      (ownLine (x ++ [10]) c) place := by
  rcases ownLine_cases x h0 hc with hnil | ⟨r', hline⟩
  · -- an empty line has no separators
    rw [hnil] at hown
    have : separators [] = 0 := rfl
    omega
  · have hlen := congrArg List.length hline
    simp only [List.length_drop, List.length_append, List.length_cons,
      List.length_nil] at hlen
    have hseg := segment_length_le place (ownLine (x ++ [10]) c)
    have hdrop : (x ++ 10 :: r).drop c =
        ownLine (x ++ [10]) c ++ 10 :: (r' ++ r) := by
      rw [← List.cons_append, ← List.append_assoc, ← hline,
        ← List.drop_append_of_le_length (by simp; omega)]
      simp
    rw [hdrop]
    exact readsSegment_line (by omega) h256 (by omega) hown (by omega)

/-- Where the own line has no such segment, nothing is read if and only if the
text has an empty one in its place: `get_value` does not stop at the end of
the line. -/
theorem readsSegment_missing_iff (hx : x.length < 256) (h2 : 2 ≤ place)
    (h256 : place ≤ 256)
    (hown : ¬ place - 1 ≤ separators (ownLine (x ++ [10]) c)) :
    ReadsSegment ((x ++ 10 :: r).drop c) (x.length + 1 - c)
        (ownLine (x ++ [10]) c) place ↔
      place - 1 ≤ separators (x.drop c) ∧ segment place (x.drop c) = [] := by
  have hnil := segment_eq_nil (Nat.lt_of_not_le hown)
  constructor
  · rintro ⟨q, n, hvalue, hn, -⟩
    by_cases hlt : c < x.length + 1
    · rw [getValue_at x r hlt (by omega) h256, valueIn] at hvalue
      split at hvalue
      · next hsep =>
        refine ⟨hsep, List.length_eq_zero_iff.mp ?_⟩
        have hseg := segment_length_le place (x.drop c)
        rw [List.length_drop] at hseg
        cases hvalue
        rw [hnil, UInt8.toNat_ofNat', Nat.mod_eq_of_lt (by omega)] at hn
        exact hn
      · cases hvalue
    · rw [getValue_behind hlt] at hvalue
      cases hvalue
  · rintro ⟨hsep, hempty⟩
    have hlt := lt_of_separators h2 hsep
    unfold ReadsSegment
    rw [hnil, ← hempty, drop_text hlt]
    exact readsSegment_line (by omega) h256
      (by rw [List.length_drop]; omega) hsep
      (by rw [hempty]; exact Nat.zero_lt_succ _)

/-- **When `get_value` stays in the line.** -/
theorem readsSegment_own_iff (hx : x.length < 256) (h0 : 0 < c)
    (hc : c ≤ x.length + 1) (h2 : 2 ≤ place) (h256 : place ≤ 256) :
    ReadsSegment ((x ++ 10 :: r).drop c) (x.length + 1 - c)
        (ownLine (x ++ [10]) c) place ↔
      FieldAt (x ++ [10]) c place := by
  unfold FieldAt
  rw [restOfText_text]
  by_cases hown : place - 1 ≤ separators (ownLine (x ++ [10]) c)
  · exact iff_of_true (readsSegment_ownLine r hx h0 hc h2 h256 hown)
      (Or.inl hown)
  · rw [or_iff_right hown]
    exact readsSegment_missing_iff r hx h2 h256 hown

end Reads

/-! ### The events of a text -/

/-- What the events of the text `m` do if their fields come from their own
lines. -/
def ownEffects (m : List UInt8) :
    List (Event × Nat) → Call → List RadioAct × Call
  | [], s => ([], s)
  | (ev, c) :: evs, s =>
    let e := eventEffect (ownLine m c) s ev
    let r := ownEffects m evs e.2
    (e.1 ++ r.1, r.2)

theorem Event.places_bounds (ev : Event) :
    ∀ place ∈ ev.places, 2 ≤ place ∧ place ≤ 256 := by
  cases ev <;> decide

section Handled

variable {buf m : List UInt8} {nbytes : Nat} {evs : List (Event × Nat)}

/-- Fields that are read from their own lines and fit are stored. -/
theorem handleAll_own
    (hread : ∀ e ∈ evs, ∀ place ∈ e.1.places,
      ReadsSegment (buf.drop e.2) (sub32 nbytes e.2) (ownLine m e.2) place)
    (hfit : ∀ e ∈ evs, ∀ place ∈ e.1.places,
      (segment place (ownLine m e.2)).length ≤ 31)
    (len : UInt8) (s : Call) :
    handleAll buf nbytes evs len s =
      ⟨(ownEffects m evs s).1, some (ownEffects m evs s).2⟩ := by
  induction evs generalizing len s with
  | nil => rfl
  | cons e evs ih =>
    rw [List.forall_mem_cons] at hread hfit
    obtain ⟨len', hev⟩ := handleEvent_reads hread.1 hfit.1 len s
    rw [handleAll, hev, Traced.mk_bind]
    dsimp only
    rw [ih hread.2 hfit.2]
    rfl

/-- A field that does not fit leaves its array. -/
theorem handleAll_long
    (hread : ∀ e ∈ evs, ∀ place ∈ e.1.places,
      ReadsSegment (buf.drop e.2) (sub32 nbytes e.2) (ownLine m e.2) place)
    (hlong : ∃ e ∈ evs, ∃ place ∈ e.1.places,
      31 < (segment place (ownLine m e.2)).length)
    (len : UInt8) (s : Call) : (handleAll buf nbytes evs len s).res = none := by
  induction evs generalizing len s with
  | nil =>
    obtain ⟨e, he, -⟩ := hlong
    cases he
  | cons e evs ih =>
    rw [List.forall_mem_cons] at hread
    rw [handleAll, Traced.bind_res]
    rcases (List.exists_mem_cons_iff _ _ _).mp hlong with hhere | hrest
    · rw [handleEvent_long hread.1 hhere]
      rfl
    · rw [Option.bind_eq_none_iff]
      exact fun t _ => ih hread.2 hrest t.1 t.2

end Handled

/-- A segment that fits is the string of the array it is stored in. -/
theorem cstr_assign_segment (dst : CArray UInt8 32) {place : Nat}
    {x : List UInt8} (h : (segment place x).length ≤ 31) :
    cstr (assign dst (segment place x)).cells = segment place x := by
  rw [assign, dif_pos h]
  refine cstr_append_zero (fun h0 => ?_) _
  exact absurd (List.mem_takeWhile_imp h0) (by decide)

/-- The fields of the events in the first `nbytes` bytes come from their own
lines. -/
structure FieldsOwn (buf : List UInt8) (nbytes : Nat) : Prop where
  /-- `get_value` assigns the length and returns a pointer to the segment -/
  reads : ∀ e ∈ eventsIn buf nbytes, ∀ place ∈ e.1.places,
    ReadsSegment (buf.drop e.2) (sub32 nbytes e.2)
      (ownLine (buf.take nbytes) e.2) place
  /-- the segments are stored, whatever `len` and the call state were -/
  stored : ∀ len s, scan buf nbytes nbytes 0 len s =
    ⟨(ownEffects (buf.take nbytes) (eventsIn buf nbytes) s).1,
      some (ownEffects (buf.take nbytes) (eventsIn buf nbytes) s).2⟩
  /-- and are the strings of their arrays -/
  strings : ∀ e ∈ eventsIn buf nbytes, ∀ place ∈ e.1.places,
    ∀ dst : CArray UInt8 32,
      cstr (assign dst (segment place (ownLine (buf.take nbytes) e.2))).cells =
        segment place (ownLine (buf.take nbytes) e.2)

/-- **The fields come from their own lines** exactly when every line has the
segments asked for, or the text has something empty in their place, and none
is longer than 31 digits. -/
theorem own_line_iff {buf : CArray UInt8 256} {nbytes : Nat}
    (hpos : 1 ≤ nbytes) (hle : nbytes ≤ 256)
    (hlast : buf.cells[nbytes - 1]? = some 10) :
    FieldsOwn buf.cells nbytes ↔
      ∀ e ∈ eventsIn buf.cells nbytes, ∀ place ∈ e.1.places,
        FieldAt (buf.cells.take nbytes) e.2 place ∧
          (segment place (ownLine (buf.cells.take nbytes) e.2)).length ≤ 31 := by
  obtain ⟨x, r, hbuf, rfl⟩ := exists_text hpos hle hlast
  obtain ⟨hpath, hin⟩ := path_eventsIn x r
  have hread : ∀ e ∈ eventsIn (x ++ 10 :: r) (x.length + 1),
      ∀ place ∈ e.1.places,
        (ReadsSegment ((x ++ 10 :: r).drop e.2) (sub32 (x.length + 1) e.2)
          (ownLine (x ++ [10]) e.2) place ↔
            FieldAt (x ++ [10]) e.2 place) := by
    intro e he place hplace
    obtain ⟨h0, hc⟩ := hin e he
    obtain ⟨h2, h256⟩ := e.1.places_bounds place hplace
    rw [sub32_of_le (by omega) hc]
    exact readsSegment_own_iff r (by omega) h0 hc h2 h256
  rw [hbuf, take_text]
  constructor
  · rintro ⟨hreads, hstored, -⟩ e he place hplace
    rw [take_text] at hreads hstored
    refine ⟨(hread e he place hplace).mp (hreads e he place hplace), ?_⟩
    -- a field of more than 31 digits would leave its array
    by_contra hlong
    have hundef := handleAll_long hreads
      ⟨e, he, place, hplace, Nat.lt_of_not_le hlong⟩ 0 radioInit.call
    rw [← scan_eq_handleAll hpath, hstored] at hundef
    cases hundef
  · intro h
    have hreads := fun e he place hplace =>
      (hread e he place hplace).mpr (h e he place hplace).1
    have hfit := fun e he place hplace => (h e he place hplace).2
    refine ⟨?_, fun len s => ?_, ?_⟩
    · rw [take_text]
      exact hreads
    · rw [take_text, scan_eq_handleAll hpath]
      exact handleAll_own hreads hfit len s
    · rw [take_text]
      exact fun e he place hplace dst =>
        cstr_assign_segment dst (hfit e he place hplace)

/-- A transmission whose line is complete. -/
theorem own_line_iff_ptt :
    let m := bytesOf "+CTXG:0,3,0,0,0,255\r\n+CDTXC:0,0\r\n"
    FieldsOwn (bufferOf m (by decide)).cells 33 :=
  (own_line_iff (by decide) (by decide) (by decide)).mpr (by decide +kernel)

/-- What a field would have to be. -/
theorem not_fieldsOwn {buf : List UInt8} {nbytes place : Nat} (ev : Event)
    (c : Nat) {p : Ptr} {n : Option UInt8} (hev : (ev, c) ∈ eventsIn buf nbytes)
    (hplace : place ∈ ev.places)
    (hvalue : getValue (buf.drop c) (sub32 nbytes c) (UInt8.ofNat place) =
      some (p, n))
    (h : n.map UInt8.toNat ≠
      some (segment place (ownLine (buf.take nbytes) c)).length) :
    ¬ FieldsOwn buf nbytes := by
  rintro ⟨hreads, -, -⟩
  obtain ⟨q, n', hvalue', hn, -⟩ := hreads _ hev place hplace
  cases hvalue.symm.trans hvalue'
  exact h (congrArg some hn)

/-- A line that is too short, in front of another: the group is `1`, from the
second line.  Alone, it leaves the length as it was; and if it ends right
behind the prefix, the pointer is null. -/
theorem not_own_line :
    let following := bufferOf
      (bytesOf "+CTICN:0,0\r\n+CTCC:0,1,1,0,0,1,1,3\r\n") (by decide)
    let short := bufferOf (bytesOf "+CTXG:0,3\r\n") (by decide)
    let bare := bufferOf (bytesOf "+CTXG:\n") (by decide)
    (segment 12 (ownLine (following.cells.take 35) 8) = [] ∧
      (getValue (following.cells.drop 8) 27 12).map
        (fun v => (v.1.map (·.take 1), v.2)) =
          some (some (bytesOf "1"), some 1) ∧
      ¬ FieldsOwn following.cells 35) ∧
    ((getValue (short.cells.drop 7) 4 6).map Prod.snd = some none ∧
      ¬ FieldsOwn short.cells 11) ∧
    (getValue (bare.cells.drop 7) 0 6 = some (none, none) ∧
      ¬ FieldsOwn bare.cells 7) := by
  intro following short bare
  refine ⟨⟨by decide +kernel, by decide +kernel, ?_⟩,
    ⟨by decide +kernel, ?_⟩, rfl, ?_⟩
  · have hread := getValue_text (bytesOf ",0\r\n+CTCC:0,1,1,0,0,1,1,3\r")
      (List.replicate 221 0) (show 1 ≤ 12 by decide) (by decide)
    exact not_fieldsOwn .getSsi 8 (by decide +kernel)
      (List.mem_cons_of_mem _ (List.mem_singleton.mpr rfl)) hread
      (by decide +kernel)
  · have hread := getValue_text (bytesOf ",3\r")
      (List.replicate 245 0) (show 1 ≤ 6 by decide) (by decide)
    exact not_fieldsOwn .pttPressed 7 (by decide +kernel)
      (List.mem_singleton.mpr rfl) hread (by decide +kernel)
  · exact not_fieldsOwn .pttPressed 7 (by decide +kernel)
      (List.mem_singleton.mpr rfl) (getValue_end _ _) (by decide +kernel)

end Roip
