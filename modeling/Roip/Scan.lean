/-
Roip/Scan.lean

What the scanner of `radio_comm` does on the text of a line.

The scanner is compared with a fold over the line (`lineScan`) in which events
are found by their prefix and a field is the digit run behind a number of
separators (`segment`).  `scanFrom_line` says that the scanner does exactly
this on a line whose fields are all there, whatever follows the line in the
buffer.
-/
import Mathlib.Data.List.Infix
import Mathlib.Data.List.TakeWhile
import Roip.Parser

namespace Roip

/-! ### Events by their prefix -/

/-- The prefix an event is recognised by. -/
def Event.tag : Event → List UInt8
  | .getSsi => bytesOf "+CTICN:"
  | .callEst => bytesOf "+CTCC:"
  | .pttPressed => bytesOf "+CTXG:"
  | .pttReleased => bytesOf "+CDTXC:"
  | .callEnd => bytesOf "+CTCR:"

/-- The event whose prefix stands in front. -/
def eventAt (l : List UInt8) : Option Event :=
  [Event.getSsi, .callEst, .pttPressed, .pttReleased, .callEnd].find?
    fun ev => ev.tag.isPrefixOf l

theorem Event.skip_eq (ev : Event) : ev.skip = ev.tag.length + 1 := by
  cases ev <;> decide

theorem Event.newline_notMem_tag (ev : Event) : 10 ∉ ev.tag := by
  cases ev <;> decide

theorem eventAt_eq_some {l : List UInt8} {ev : Event}
    (h : eventAt l = some ev) : ∃ x, l = ev.tag ++ x := by
  have := List.find?_some h
  obtain ⟨x, hx⟩ := List.isPrefixOf_iff_prefix.mp this
  exact ⟨x, hx.symm⟩

/-- No event starts with a line end. -/
theorem eventAt_cons_of_end {b : UInt8} (hb : b = 13 ∨ b = 10)
    (l : List UInt8) : eventAt (b :: l) = none := by
  rcases hb with rfl | rfl <;> rfl

/-- Comparing with a text that has no newline and no zero looks at most at
the first newline. -/
theorem strncmpEq_line (l r text : List UInt8) (n : Nat)
    (hn : n ≤ text.length) (h10 : 10 ∉ text.take n) (h0 : 0 ∉ text.take n) :
    strncmpEq (l ++ 10 :: r) text n = some ((text.take n).isPrefixOf l) := by
  induction n generalizing l text with
  | zero => cases l <;> rfl
  | succ n ih =>
    rcases text with - | ⟨y, text⟩
    · simp at hn
    · simp only [List.take_succ_cons, List.mem_cons, not_or] at h10 h0
      rcases l with - | ⟨x, l⟩
      · have hy : (10 : UInt8) ≠ y := h10.1
        simp [strncmpEq, hy]
      · by_cases hxy : x = y
        · subst hxy
          have hx : x ≠ 0 := fun e => h0.1 e.symm
          simpa [strncmpEq, hx] using
            ih l text (Nat.le_of_succ_le_succ hn) h10.2 h0.2
        · have hyx : (y == x) = false := beq_false_of_ne fun e => hxy e.symm
          simp [strncmpEq, List.isPrefixOf, hxy, hyx]

/-- The comparisons look at most at the first newline. -/
theorem firstMatch_line (l r : List UInt8)
    (table : List (List UInt8 × Nat × Event))
    (h : ∀ e ∈ table, e.2.1 ≤ e.1.length ∧ e.1.take e.2.1 = e.2.2.tag) :
    firstMatch (l ++ 10 :: r) table =
      some ((table.map (·.2.2)).find? fun ev => ev.tag.isPrefixOf l) := by
  induction table with
  | nil => rfl
  | cons e table ih =>
    obtain ⟨text, n, ev⟩ := e
    obtain ⟨hn, htag⟩ := h _ (List.mem_cons_self)
    have h0 : 0 ∉ ev.tag := by cases ev <;> decide
    have hcmp := strncmpEq_line l r text n hn
      (htag ▸ ev.newline_notMem_tag) (htag ▸ h0)
    rw [htag] at hcmp
    rw [firstMatch, hcmp, List.map_cons, List.find?_cons]
    rcases ev.tag.isPrefixOf l with - | -
    · exact ih fun e he => h e (List.mem_cons_of_mem _ he)
    · rfl

/-- **Recognition is local to the line.** -/
theorem recognise_line (l r : List UInt8) :
    recognise (l ++ 10 :: r) = some (eventAt l) := by
  rcases l with - | ⟨b, l⟩
  · rfl
  · by_cases hb : b = 13 ∨ b = 10
    · rw [eventAt_cons_of_end hb]
      rcases hb with rfl | rfl <;> rfl
    · have hb' : ¬ (b = 13 || b = 10) = true := by simpa using hb
      rw [List.cons_append, recognise, if_neg hb', ← List.cons_append]
      exact firstMatch_line (b :: l) r comparisons (by decide)

/-! ### Fields of a line -/

/-- The text behind `k` digit runs and their separators. -/
def skipSegments : Nat → List UInt8 → List UInt8
  | 0, x => x
  | k + 1, x => skipSegments k ((x.dropWhile isDigit).drop 1)

/-- The segment at a place (from 1): the digit run behind `place - 1`
separators. -/
def segment (place : Nat) (x : List UInt8) : List UInt8 :=
  (skipSegments (place - 1) x).takeWhile isDigit

/-- The number of separators; a text has one segment more. -/
def separators (x : List UInt8) : Nat := x.countP fun b => !isDigit b

theorem digitRun_line (x r : List UInt8) :
    digitRun (x ++ 10 :: r) = some (x.takeWhile isDigit).length := by
  induction x with
  | nil => rfl
  | cons b x ih =>
    by_cases hb : isDigit b
    · simp [digitRun, hb, ih]
    · simp [digitRun, hb]

/-- A text with a separator: its first digit run, the separator, the rest. -/
theorem segment_split {x : List UInt8} (h : separators x ≠ 0) :
    ∃ b, isDigit b = false ∧ x = x.takeWhile isDigit ++ b ::
      (x.dropWhile isDigit).drop 1 := by
  induction x with
  | nil => exact absurd rfl h
  | cons a x ih =>
    by_cases ha : isDigit a
    · have hx : separators x ≠ 0 := by
        simpa [separators, List.countP_cons, ha] using h
      obtain ⟨b, hb, hsplit⟩ := ih hx
      refine ⟨b, hb, ?_⟩
      simpa [List.takeWhile_cons, List.dropWhile_cons, ha] using hsplit
    · exact ⟨a, by simpa using ha, by simp [ha]⟩

/-- A text without separators consists of digits. -/
theorem isDigit_of_mem {x : List UInt8} (h : separators x = 0) :
    ∀ b ∈ x, isDigit b = true := by
  intro b hb
  simpa using List.countP_eq_zero.mp h b hb

theorem separators_split {x : List UInt8} (h : separators x ≠ 0) :
    separators x = separators ((x.dropWhile isDigit).drop 1) + 1 := by
  obtain ⟨b, hb, hsplit⟩ := segment_split h
  have hdig : separators (x.takeWhile isDigit) = 0 := by
    unfold separators
    rw [List.countP_eq_zero]
    intro a ha
    simpa using List.mem_takeWhile_imp ha
  have hsum : separators x = separators (x.takeWhile isDigit) +
      (separators ((x.dropWhile isDigit).drop 1) + 1) := by
    conv => lhs; rw [hsplit]
    simp [separators, hb]
  omega

/-- The text behind the first separator, in the buffer. -/
theorem drop_segment {buf x r : List UInt8} {c : Nat}
    (hbuf : buf.drop c = x ++ 10 :: r) (h : separators x ≠ 0) :
    buf.drop (c + (x.takeWhile isDigit).length + 1) =
        (x.dropWhile isDigit).drop 1 ++ 10 :: r ∧
      x.length = (x.takeWhile isDigit).length + 1 +
        ((x.dropWhile isDigit).drop 1).length := by
  obtain ⟨b, -, hsplit⟩ := segment_split h
  have hlen := congrArg List.length hsplit
  rw [List.length_append, List.length_cons] at hlen
  have hcut (d t : List UInt8) :
      (d ++ b :: t ++ 10 :: r).drop (d.length + 1) = t ++ 10 :: r := by
    simp
  refine ⟨?_, by omega⟩
  have := hcut (x.takeWhile isDigit) ((x.dropWhile isDigit).drop 1)
  rw [← hsplit] at this
  rw [Nat.add_assoc, ← List.drop_drop, hbuf, this]

/-- `count_place` has not yet come to a place behind it. -/
theorem countPlace_ne (count : UInt8) {k : Nat} (hk : k + 1 < 256) :
    count ≠ count + UInt8.ofNat (k + 1) := by
  intro e
  have e' := congrArg UInt8.toNat e
  simp only [UInt8.toNat_add, UInt8.toNat_ofNat'] at e'
  have := count.toNat_lt
  omega

theorem countPlace_succ (count : UInt8) (k : Nat) :
    count + UInt8.ofNat (k + 1) = count + 1 + UInt8.ofNat k := by
  rw [UInt8.ofNat_add, UInt8.add_comm (UInt8.ofNat k), ← UInt8.add_assoc]
  rfl

/-- A segment that is not the one asked for is passed over together with its
separator. -/
theorem getValueLoop_next {buf x r : List UInt8} {len c : Nat}
    {count place : UInt8} (hbuf : buf.drop c = x ++ 10 :: r) (hc : c < len)
    (hne : count ≠ place) (fuel : Nat) (start : Ptr) :
    getValueLoop buf len place (fuel + 1) c count start =
      getValueLoop buf len place fuel
        (c + (x.takeWhile isDigit).length + 1) (count + 1)
        (some (x ++ 10 :: r)) := by
  simp only [getValueLoop, if_pos hc, hbuf, digitRun_line, if_neg hne,
    Option.bind_eq_bind, Option.bind_some]

/-- **`get_value` stays in its line**: if the line has enough separators, the
loop finds the segment and never looks behind the newline. -/
theorem getValueLoop_line {buf r : List UInt8} {len : Nat} (k : Nat)
    (hk : k < 256) (fuel c : Nat) (count : UInt8) (start : Ptr)
    {x : List UInt8} (hbuf : buf.drop c = x ++ 10 :: r)
    (hlen : c + x.length < len) (hfuel : x.length < fuel)
    (hsep : k ≤ separators x) :
    getValueLoop buf len (count + UInt8.ofNat k) fuel c count start =
      some (some (skipSegments k x ++ 10 :: r),
        some (UInt8.ofNat (segment (k + 1) x).length)) := by
  obtain ⟨fuel, rfl⟩ := Nat.exists_eq_add_one_of_ne_zero
    (Nat.ne_zero_of_lt hfuel)
  have hc : c < len := by omega
  induction k generalizing fuel c count start x with
  | zero => simp [getValueLoop, hc, hbuf, digitRun_line, skipSegments, segment]
  | succ k ih =>
    have hsome : separators x ≠ 0 := by omega
    have hrest := separators_split hsome
    obtain ⟨hdrop, hlenx⟩ := drop_segment hbuf hsome
    obtain ⟨fuel, rfl⟩ := Nat.exists_eq_add_one_of_ne_zero
      (show fuel ≠ 0 by omega)
    rw [getValueLoop_next hbuf hc (countPlace_ne count hk), countPlace_succ]
    exact ih (by omega) _ _ _ hdrop (by omega) (by omega) fuel (by omega)
      (by omega)

theorem getValue_line {x r : List UInt8} {len : Nat} (place : Nat)
    (h1 : 1 ≤ place) (h256 : place ≤ 256) (hlen : x.length < len)
    (hsep : place - 1 ≤ separators x) :
    getValue (x ++ 10 :: r) len (UInt8.ofNat place) =
      some (some (skipSegments (place - 1) x ++ 10 :: r),
        some (UInt8.ofNat (segment place x).length)) := by
  obtain ⟨k, rfl⟩ := Nat.exists_eq_add_one_of_ne_zero (Nat.ne_zero_of_lt h1)
  have hplace : UInt8.ofNat (k + 1) = 1 + UInt8.ofNat k := by
    rw [UInt8.ofNat_add, UInt8.add_comm]
    rfl
  rw [getValue, hplace]
  exact getValueLoop_line k (by omega) len 0 1 none rfl (by omega) hlen hsep

/-- An identity after a string of at most 31 bytes has been stored in it. -/
def assign (dst : CArray UInt8 32) (s : List UInt8) : CArray UInt8 32 :=
  if h : s.length ≤ 31 then
    ⟨s ++ 0 :: dst.cells.drop (s.length + 1), by
      have := dst.size
      simp only [List.length_append, List.length_cons, List.length_drop]
      omega⟩
  else dst

/-- Storing a field that fits. -/
theorem storeIdentity_eq_assign (dst : CArray UInt8 32) {s p : List UInt8}
    (hs : s.length ≤ 31) (hp : s <+: p) :
    storeIdentity dst (some p) (UInt8.ofNat s.length) =
      some (assign dst s) := by
  have hlen : (UInt8.ofNat s.length).toNat = s.length := by
    rw [UInt8.toNat_ofNat']
    omega
  have htake : p.take s.length = s := (List.prefix_iff_eq_take.mp hp).symm
  have hmem : dst.memcpy 0 s = some ⟨s ++ dst.cells.drop s.length, by
      have := dst.size
      simp only [List.length_append, List.length_drop]
      omega⟩ := by
    refine CArray.memcpy_eq_some_iff.mpr ⟨by omega, ?_⟩
    simp
  obtain ⟨y, hdrop⟩ : ∃ y, dst.cells.drop s.length =
      y :: dst.cells.drop (s.length + 1) :=
    ⟨_, List.drop_eq_getElem_cons (by rw [dst.size]; omega)⟩
  unfold storeIdentity
  simp only [hlen, if_pos hp.length_le, htake, Option.bind_eq_bind,
    Option.bind_some, hmem]
  refine CArray.set_eq_some_iff.mpr ⟨by omega, ?_⟩
  rw [assign, dif_pos hs]
  simp only [hdrop]
  rw [List.set_append_right _ _ (Nat.le_refl _), Nat.sub_self,
    List.set_cons_zero]

/-- Storing a field that does not fit. -/
theorem storeIdentity_overflow (dst : CArray UInt8 32) (s : Ptr) {n : UInt8}
    (hn : 32 ≤ n.toNat) : storeIdentity dst s n = none := by
  have hset (a : CArray UInt8 32) : a.set n.toNat 0 = none :=
    if_neg (Nat.not_lt.mpr hn)
  unfold storeIdentity
  cases s <;> simp [hset]

/-! ### Events of a line -/

/-- Which events read fields of their line. -/
def Event.hasFields : Event → Bool
  | .getSsi => true
  | .pttPressed => true
  | _ => false

/-- The fields an event reads are in the text `x` behind its prefix and one
more character, and fit into their arrays. -/
def FieldsOk (x : List UInt8) : Event → Prop
  | .getSsi => 11 ≤ separators x ∧ (segment 5 x).length ≤ 31 ∧
      (segment 12 x).length ≤ 31
  | .pttPressed => 5 ≤ separators x ∧ (segment 6 x).length ≤ 31
  | _ => True

/-- What an event does, `x` being the text behind its prefix and one more
character. -/
def eventEffect (x : List UInt8) (s : Call) : Event → List RadioAct × Call
  | .getSsi =>
    let ssi := assign s.ssi (segment 5 x)
    let gssi := assign s.gssi (segment 12 x)
    ([.update .ssi ssi, .update .gssi gssi],
      { s with ssi, gssi, ser := .activeIncomingCall })
  | .callEst => ([], { s with ser := .activeCallEstablished })
  | .pttPressed =>
    let ssi2 := assign s.ssi2 (segment 6 x)
    ([.update .ssi2 ssi2, .adcStart], { s with ssi2, ser := .activePtt })
  | .pttReleased => ([.update .ssi2 clearIdentity, .adcStop],
      { s with ssi2 := clearIdentity, ser := .activeCallEstablished })
  | .callEnd =>
    ([.update .ssi clearIdentity, .update .gssi clearIdentity],
      { s with
        ssi := clearIdentity
        gssi := clearIdentity
        ser := .activeWait })

/-- The places of the fields an event reads. -/
def Event.places : Event → List Nat
  | .getSsi => [5, 12]
  | .pttPressed => [6]
  | _ => []

/-- `get_value` returns the segment of the text `x`. -/
def ReadsSegment (p : List UInt8) (rest : Nat) (x : List UInt8)
    (place : Nat) : Prop :=
  ∃ q n, getValue p rest (UInt8.ofNat place) = some (some q, some n) ∧
    n.toNat = (segment place x).length ∧ segment place x <+: q

/-- What is stored then. -/
theorem ReadsSegment.store {p x : List UInt8} {rest place : Nat}
    (h : ReadsSegment p rest x place) (dst : CArray UInt8 32) :
    ∃ q n, getValue p rest (UInt8.ofNat place) = some (q, some n) ∧
      ((segment place x).length ≤ 31 →
        storeIdentity dst q n = some (assign dst (segment place x))) ∧
      (31 < (segment place x).length → storeIdentity dst q n = none) := by
  obtain ⟨q, n, hvalue, hn, hq⟩ := h
  refine ⟨some q, n, hvalue, fun hs => ?_, fun hs => ?_⟩
  · rw [← storeIdentity_eq_assign dst hs hq, ← hn, UInt8.ofNat_toNat]
  · exact storeIdentity_overflow dst _ (by omega)

/-- **An event whose fields are read from the text `x`**, and fit. -/
theorem handleEvent_reads {ev : Event} {p x : List UInt8} {rest : Nat}
    (hread : ∀ place ∈ ev.places, ReadsSegment p rest x place)
    (hfit : ∀ place ∈ ev.places, (segment place x).length ≤ 31)
    (len : UInt8) (s : Call) :
    ∃ len', handleEvent ev p rest len s =
      ⟨(eventEffect x s ev).1, some (len', (eventEffect x s ev).2)⟩ := by
  cases ev with
  | getSsi =>
    obtain ⟨q₅, n₅, g5, s5, -⟩ := (hread 5 (by decide)).store s.ssi
    obtain ⟨q₁₂, n₁₂, g12, s12, -⟩ := (hread 12 (by decide)).store s.gssi
    refine ⟨n₁₂, ?_⟩
    unfold handleEvent
    rw [show (5 : UInt8) = UInt8.ofNat 5 from rfl, g5,
      show (12 : UInt8) = UInt8.ofNat 12 from rfl, g12]
    simp only [Traced.ofOption_some, pure_bind, Option.getD_some,
      s5 (hfit 5 (by decide)), s12 (hfit 12 (by decide))]
    rfl
  | pttPressed =>
    obtain ⟨q, n, g6, s6, -⟩ := (hread 6 (by decide)).store s.ssi2
    refine ⟨n, ?_⟩
    unfold handleEvent
    rw [show (6 : UInt8) = UInt8.ofNat 6 from rfl, g6]
    simp only [Traced.ofOption_some, pure_bind, Option.getD_some,
      s6 (hfit 6 (by decide))]
    rfl
  | callEst | pttReleased | callEnd => exact ⟨len, rfl⟩

/-- An event one of whose fields does not fit. -/
theorem handleEvent_long {ev : Event} {p x : List UInt8} {rest : Nat}
    (hread : ∀ place ∈ ev.places, ReadsSegment p rest x place)
    (hlong : ∃ place ∈ ev.places, 31 < (segment place x).length)
    (len : UInt8) (s : Call) : (handleEvent ev p rest len s).res = none := by
  obtain ⟨place, hplace, hlong⟩ := hlong
  cases ev with
  | getSsi =>
    obtain ⟨q₅, n₅, g5, s5, l5⟩ := (hread 5 (by decide)).store s.ssi
    obtain ⟨q₁₂, n₁₂, g12, -, l12⟩ := (hread 12 (by decide)).store s.gssi
    unfold handleEvent
    rw [show (5 : UInt8) = UInt8.ofNat 5 from rfl, g5,
      show (12 : UInt8) = UInt8.ofNat 12 from rfl, g12]
    simp only [Traced.ofOption_some, pure_bind, Option.getD_some]
    rcases List.mem_pair.mp hplace with rfl | rfl
    · rw [l5 hlong]
      rfl
    · rw [l12 hlong]
      rcases storeIdentity s.ssi q₅ n₅ with - | ssi <;> rfl
  | pttPressed =>
    obtain rfl := List.mem_singleton.mp hplace
    obtain ⟨q, n, g6, -, l6⟩ := (hread 6 (by decide)).store s.ssi2
    unfold handleEvent
    rw [show (6 : UInt8) = UInt8.ofNat 6 from rfl, g6]
    simp only [Traced.ofOption_some, pure_bind, Option.getD_some, l6 hlong]
    rfl
  | callEst | pttReleased | callEnd => cases hplace

/-- A digit run stands in front of what follows it. -/
theorem segment_in_front (place : Nat) (x r : List UInt8) :
    segment place x <+: skipSegments (place - 1) x ++ 10 :: r :=
  (List.takeWhile_prefix _).trans (List.prefix_append _ _)

/-- A field that the line has is read from it. -/
theorem readsSegment_line {x r : List UInt8} {rest place : Nat}
    (h1 : 1 ≤ place) (h256 : place ≤ 256) (hrest : x.length < rest)
    (hsep : place - 1 ≤ separators x) (hlen : (segment place x).length < 256) :
    ReadsSegment (x ++ 10 :: r) rest x place := by
  refine ⟨_, _, getValue_line place h1 h256 hrest hsep, ?_,
    segment_in_front place x r⟩
  rw [UInt8.toNat_ofNat']
  omega

/-- An event whose fields are all in its line. -/
theorem handleEvent_line {ev : Event} {x r : List UInt8} {rest : Nat}
    (hrest : x.length < rest) (hok : FieldsOk x ev) (len : UInt8) (s : Call) :
    ∃ len', handleEvent ev (x ++ 10 :: r) rest len s =
      ⟨(eventEffect x s ev).1, some (len', (eventEffect x s ev).2)⟩ := by
  have hfields : ∀ place ∈ ev.places, 1 ≤ place ∧ place ≤ 256 ∧
      place - 1 ≤ separators x ∧ (segment place x).length ≤ 31 := by
    cases ev with
    | getSsi =>
      obtain ⟨hsep, h5, h12⟩ := hok
      simp only [Event.places, List.forall_mem_cons]
      exact ⟨by omega, by omega, by simp⟩
    | pttPressed =>
      obtain ⟨hsep, h6⟩ := hok
      simp only [Event.places, List.forall_mem_cons]
      exact ⟨by omega, by simp⟩
    | callEst | pttReleased | callEnd => simp [Event.places]
  refine handleEvent_reads (fun place hplace => ?_)
    (fun place hplace => (hfields place hplace).2.2.2) len s
  obtain ⟨h1, h256, hsep, hfit⟩ := hfields place hplace
  exact readsSegment_line h1 h256 hrest hsep (by omega)

/-- An event that reads no field does not look at the text. -/
theorem handleEvent_noFields {ev : Event} (h : ev.hasFields = false)
    (p x : List UInt8) (rest : Nat) (len : UInt8) (s : Call) :
    handleEvent ev p rest len s =
      ⟨(eventEffect x s ev).1, some (len, (eventEffect x s ev).2)⟩ := by
  cases ev <;> first | rfl | cases h

/-- Every event of the line that reads fields finds them in the line. -/
def LineOk (l : List UInt8) : Prop :=
  ∀ pre ev post, l = pre ++ ev.tag ++ post → ev.hasFields = true →
    ∃ b x, post = b :: x ∧ FieldsOk x ev

theorem LineOk.drop {l : List UInt8} (h : LineOk l) (k : Nat) :
    LineOk (l.drop k) := by
  intro pre ev post hl hev
  refine h (l.take k ++ pre) ev post ?_ hev
  rw [List.append_assoc, List.append_assoc, ← List.append_assoc pre, ← hl,
    List.take_append_drop]

instance (x : List UInt8) : (ev : Event) → Decidable (FieldsOk x ev)
  | .getSsi => inferInstanceAs (Decidable (_ ∧ _ ∧ _))
  | .pttPressed => inferInstanceAs (Decidable (_ ∧ _))
  | .callEst => inferInstanceAs (Decidable True)
  | .pttReleased => inferInstanceAs (Decidable True)
  | .callEnd => inferInstanceAs (Decidable True)

theorem Event.drop_tag (ev : Event) (pre post : List UInt8) :
    (pre ++ ev.tag ++ post).drop (pre.length + ev.tag.length) = post := by
  rw [← List.length_append, List.drop_left]

theorem Event.drop_skip (ev : Event) (pre x : List UInt8) (b : UInt8) :
    (pre ++ ev.tag ++ b :: x).drop (pre.length + ev.skip) = x := by
  rw [ev.skip_eq, ← Nat.add_assoc, ← List.drop_drop, ev.drop_tag]
  rfl

/-- `LineOk` as a test of every position. -/
theorem lineOk_iff {l : List UInt8} : LineOk l ↔ ∀ pre ∈ l.inits,
    ∀ ev ∈ [Event.getSsi, .pttPressed],
      ev.tag.isPrefixOf (l.drop pre.length) = true →
        l.drop (pre.length + ev.tag.length) ≠ [] ∧
          FieldsOk (l.drop (pre.length + ev.skip)) ev := by
  constructor
  · intro h pre hpre ev hev htag
    obtain ⟨tail, rfl⟩ := (List.mem_inits _ _).mp hpre
    rw [List.drop_left, List.isPrefixOf_iff_prefix] at htag
    obtain ⟨post, rfl⟩ := htag
    rw [← List.append_assoc] at h ⊢
    obtain ⟨b, x, rfl, hx⟩ := h pre ev post rfl (by
      rcases List.mem_pair.mp hev with rfl | rfl <;> rfl)
    rw [ev.drop_tag, ev.drop_skip]
    exact ⟨List.cons_ne_nil _ _, hx⟩
  · rintro h pre ev post rfl hev
    have hmem : ev ∈ [Event.getSsi, .pttPressed] := by
      cases ev <;> first | decide | cases hev
    have hpre : pre ∈ (pre ++ ev.tag ++ post).inits :=
      (List.mem_inits _ _).mpr ⟨ev.tag ++ post, by rw [List.append_assoc]⟩
    have htag : ev.tag.isPrefixOf
        ((pre ++ ev.tag ++ post).drop pre.length) = true := by
      rw [List.append_assoc, List.drop_left]
      exact List.isPrefixOf_iff_prefix.mpr (List.prefix_append _ _)
    obtain ⟨hne, hx⟩ := h pre hpre ev hmem htag
    rw [ev.drop_tag] at hne
    obtain ⟨b, x, rfl⟩ := List.exists_cons_of_ne_nil hne
    exact ⟨b, x, rfl, by rwa [ev.drop_skip] at hx⟩

instance (l : List UInt8) : Decidable (LineOk l) :=
  decidable_of_iff' _ lineOk_iff

/-- The scanner as a fold over the text of a line; `skip` characters are
passed over before the next comparison. -/
def lineScan : Nat → List UInt8 → Call → List RadioAct × Call
  | _, [], s => ([], s)
  | skip + 1, _ :: l, s => lineScan skip l s
  | 0, b :: l, s =>
    match eventAt (b :: l) with
    | none => lineScan 0 l s
    | some ev =>
      let e := eventEffect ((b :: l).drop ev.skip) s ev
      let r := lineScan (ev.skip - 1) l e.2
      (e.1 ++ r.1, r.2)

theorem lineScan_skip (k : Nat) (l : List UInt8) (s : Call) :
    lineScan k l s = lineScan 0 (l.drop k) s := by
  induction k generalizing l with
  | zero => rfl
  | succ k ih =>
    rcases l with - | ⟨b, l⟩
    · rfl
    · exact ih l

/-- One turn of the loop inside a line. -/
theorem scanBody_line {buf l r : List UInt8} {nbytes c : Nat} {b : UInt8}
    (hbuf : buf.drop c = b :: l ++ 10 :: r) (hc : c + l.length + 1 < nbytes)
    (hn : nbytes < 2 ^ 32) (hok : LineOk (b :: l)) (len : UInt8) (s : Call) :
    ∃ (k : Nat) (len' : UInt8) (e : List RadioAct × Call),
      scanBody buf nbytes c len s = ⟨e.1, some (c + k, len', e.2)⟩ ∧ 0 < k ∧ k ≤ l.length + 2 ∧
      lineScan 0 (b :: l) s =
        (e.1 ++ (lineScan 0 ((b :: l).drop k) e.2).1,
          (lineScan 0 ((b :: l).drop k) e.2).2) := by
  have hrec : recognise (buf.drop c) = some (eventAt (b :: l)) := by
    rw [hbuf]
    exact recognise_line (b :: l) r
  rcases hev : eventAt (b :: l) with - | ev
  · refine ⟨1, len, ([], s), ?_, by omega, by omega, ?_⟩
    · unfold scanBody
      rw [hrec, hev]
      rfl
    · rw [lineScan, hev]
      simp
  · obtain ⟨post, hpost⟩ := eventAt_eq_some hev
    have hlen := congrArg List.length hpost
    rw [List.length_append, List.length_cons] at hlen
    have hskip := ev.skip_eq
    have hfold : lineScan 0 (b :: l) s =
        ((eventEffect ((b :: l).drop ev.skip) s ev).1 ++
          (lineScan 0 ((b :: l).drop ev.skip)
            (eventEffect ((b :: l).drop ev.skip) s ev).2).1,
          (lineScan 0 ((b :: l).drop ev.skip)
            (eventEffect ((b :: l).drop ev.skip) s ev).2).2) := by
      rw [lineScan, hev]
      simp only [lineScan_skip (ev.skip - 1)]
      rw [show l.drop (ev.skip - 1) = (b :: l).drop ev.skip by
        rw [hskip, Nat.add_sub_cancel, List.drop_succ_cons]]
    have hev' : ∃ len', handleEvent ev (buf.drop (c + ev.skip))
        (sub32 nbytes (c + ev.skip)) len s =
          ⟨(eventEffect ((b :: l).drop ev.skip) s ev).1,
            some (len', (eventEffect ((b :: l).drop ev.skip) s ev).2)⟩ := by
      by_cases hf : ev.hasFields = true
      · -- the fields lie in this line, before its newline
        obtain ⟨b', x, rfl, hfields⟩ := hok [] ev post hpost hf
        have hx : (b :: l).drop ev.skip = x := by
          rw [hpost, hskip, ← List.drop_drop, List.drop_left]
          rfl
        rw [List.length_cons] at hlen
        have hp : buf.drop (c + ev.skip) = x ++ 10 :: r := by
          rw [← List.drop_drop, hbuf, List.drop_append_of_le_length
            (by rw [List.length_cons]; omega), hx]
        have hrest : sub32 nbytes (c + ev.skip) = nbytes - (c + ev.skip) := by
          unfold sub32
          omega
        rw [hp, hrest, hx]
        exact handleEvent_line (by omega) hfields len s
      · exact ⟨len, handleEvent_noFields (by simpa using hf) _ _ _ _ _⟩
    obtain ⟨len', hev'⟩ := hev'
    refine ⟨ev.skip, len', _, ?_, by omega, by omega, hfold⟩
    unfold scanBody
    rw [hrec, hev]
    simp only [Traced.ofOption_some, pure_bind, hev']
    rw [Traced.mk_bind]
    simp

/-! ### The loop -/

/-- The loop of `radio_comm` from cursor `c` on. -/
def scanFrom (buf : List UInt8) (nbytes c : Nat) (len : UInt8) (s : Call) :
    Traced RadioAct Call :=
  scan buf nbytes (nbytes - c) c len s

/-- Every turn advances the cursor. -/
theorem scanBody_lt {buf : List UInt8} {nbytes c c' : Nat} {len len' : UInt8}
    {s s' : Call}
    (h : (scanBody buf nbytes c len s).res = some (c', len', s')) :
    c < c' := by
  unfold scanBody at h
  rcases hrec : recognise (buf.drop c) with - | - | ev
  · simp [hrec] at h
  · simp only [hrec, Traced.ofOption_some, pure_bind, Traced.pure_res,
      Option.some.injEq, Prod.mk.injEq] at h
    omega
  · simp only [hrec, Traced.ofOption_some, pure_bind, Traced.bind_res,
      Option.bind_eq_some_iff, Traced.pure_res, Option.some.injEq,
      Prod.mk.injEq] at h
    obtain ⟨-, -, rfl, -⟩ := h
    have := ev.skip_eq
    omega

/-- More fuel than bytes left changes nothing. -/
theorem scan_fuel {buf : List UInt8} {nbytes : Nat} (fuel c : Nat)
    (len : UInt8) (s : Call) (h : nbytes - c ≤ fuel) :
    scan buf nbytes fuel c len s = scanFrom buf nbytes c len s := by
  unfold scanFrom
  induction fuel using Nat.strong_induction_on generalizing c len s with
  | h fuel ih =>
    by_cases hc : c < nbytes
    · obtain ⟨f, rfl⟩ : ∃ f, fuel = f + 1 := ⟨fuel - 1, by omega⟩
      obtain ⟨g, hg⟩ : ∃ g, nbytes - c = g + 1 := ⟨nbytes - c - 1, by omega⟩
      rw [hg, scan, scan, if_pos hc, if_pos hc]
      rcases hbody : scanBody buf nbytes c len s with ⟨o, - | ⟨c', len', s'⟩⟩
      · rfl
      · have hlt := scanBody_lt (congrArg Traced.res hbody)
        rw [Traced.mk_bind, Traced.mk_bind]
        dsimp only
        rw [ih f (by omega) c' len' s' (by omega),
          ih g (by omega) c' len' s' (by omega)]
    · rw [Nat.sub_eq_zero_of_le (Nat.le_of_not_lt hc)]
      rcases fuel with - | fuel
      · rfl
      · rw [scan, scan, if_neg hc]

theorem scanFrom_step {buf : List UInt8} {nbytes c : Nat} (hc : c < nbytes)
    (len : UInt8) (s : Call) :
    scanFrom buf nbytes c len s =
      scanBody buf nbytes c len s >>= fun (c, len, s) =>
        scanFrom buf nbytes c len s := by
  rw [← scan_fuel (nbytes - c - 1 + 1) c len s (by omega), scan, if_pos hc]
  rcases hbody : scanBody buf nbytes c len s with ⟨o, - | ⟨c', len', s'⟩⟩
  · rfl
  · have hlt := scanBody_lt (congrArg Traced.res hbody)
    rw [Traced.mk_bind, Traced.mk_bind]
    dsimp only
    rw [scan_fuel _ c' len' s' (by omega)]

theorem scanFrom_end {buf : List UInt8} {nbytes c : Nat} (hc : nbytes ≤ c)
    (len : UInt8) (s : Call) : scanFrom buf nbytes c len s = pure s := by
  rw [scanFrom, Nat.sub_eq_zero_of_le hc, scan]

/-- **The scanner on a line.**  It does what the line says and goes on behind
the newline. -/
theorem scanFrom_line {buf l r : List UInt8} {nbytes c : Nat}
    (hbuf : buf.drop c = l ++ 10 :: r) (hc : c + l.length < nbytes)
    (hn : nbytes < 2 ^ 32) (hok : LineOk l) (len : UInt8) (s : Call) :
    ∃ len', scanFrom buf nbytes c len s =
      (scanFrom buf nbytes (c + l.length + 1) len' (lineScan 0 l s).2).after
        (lineScan 0 l s).1 := by
  induction hm : l.length using Nat.strong_induction_on
    generalizing l c len s with
  | h m ih =>
    rcases l with - | ⟨b, l⟩
    · refine ⟨len, ?_⟩
      subst hm
      have hbody : scanBody buf nbytes c len s = pure (c + 1, len, s) := by
        unfold scanBody
        rw [hbuf]
        rfl
      rw [scanFrom_step (Nat.lt_of_le_of_lt (Nat.le_add_right ..) hc),
        hbody, pure_bind]
      rfl
    · rw [List.length_cons] at hm hc
      obtain ⟨k, len₁, e, hbody, hk0, hk, hfold⟩ :=
        scanBody_line hbuf (by omega) hn hok len s
      rw [scanFrom_step (by omega), hbody, Traced.mk_bind, hfold]
      dsimp only
      by_cases hend : k ≤ l.length + 1
      · -- the cursor is still in the line
        have hdrop : buf.drop (c + k) = (b :: l).drop k ++ 10 :: r := by
          rw [← List.drop_drop, hbuf, List.drop_append_of_le_length
            (by rw [List.length_cons]; omega)]
        have hlen : ((b :: l).drop k).length = l.length + 1 - k := by
          rw [List.length_drop, List.length_cons]
        obtain ⟨len₂, h⟩ := ih _ (by omega) hdrop (by omega) (hok.drop k)
          len₁ e.2 rfl
        refine ⟨len₂, ?_⟩
        rw [h, hlen, show c + k + (l.length + 1 - k) + 1 = c + m + 1 by omega]
        exact Traced.ext (List.append_assoc ..).symm rfl
      · -- the skip behind a prefix has jumped over the newline
        obtain rfl : k = l.length + 2 := by omega
        refine ⟨len₁, ?_⟩
        rw [List.drop_of_length_le (by simp), lineScan,
          show c + (l.length + 2) = c + m + 1 by omega]
        exact Traced.ext (by simp) rfl

/-- The scanner as a fold over lines. -/
def linesScan : List (List UInt8) → Call → List RadioAct × Call
  | [], s => ([], s)
  | l :: ls, s =>
    let e := lineScan 0 l s
    let r := linesScan ls e.2
    (e.1 ++ r.1, r.2)

theorem linesScan_append (ls ms : List (List UInt8)) (s : Call) :
    linesScan (ls ++ ms) s =
      ((linesScan ls s).1 ++ (linesScan ms (linesScan ls s).2).1,
        (linesScan ms (linesScan ls s).2).2) := by
  induction ls generalizing s with
  | nil => rfl
  | cons l ls ih => simp [linesScan, ih]

end Roip
