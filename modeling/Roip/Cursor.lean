/-
Roip/Cursor.lean

The scan of `radio_comm` stays inside the received bytes.

None of the reads of the loop is checked against the length of the text.  The
text ends in a newline, no prefix of an event contains one, and no digit run
does: so a comparison stops there at the latest, an event leaves the cursor at
most behind the newline, and `get_value` ends its last segment in front of it.

The received bytes are written `x ++ [10]`, and the array `x ++ 10 :: r`; what
lies behind them, `r`, is what earlier texts have left there.
-/
import Roip.Scan

namespace Roip

/-! ### The values of a text -/

/-- What `get_value` finds in a text: where the pointer points to, and
`*out_len` if it is assigned. -/
def valueIn (place : Nat) (x : List UInt8) : List UInt8 × Option UInt8 :=
  if place - 1 ≤ separators x then
    (skipSegments (place - 1) x,
      some (UInt8.ofNat (segment place x).length))
  -- the loop ends at the last segment
  else (skipSegments (separators x) x, none)

/-- If the text has too few segments, the loop of `get_value` ends without a
length. -/
theorem getValueLoop_missing {buf r : List UInt8} {len : Nat} (k : Nat)
    (hk : k < 256) (fuel c : Nat) (count : UInt8) (start : Ptr)
    {x : List UInt8} (hbuf : buf.drop c = x ++ 10 :: r)
    (hlen : len = c + x.length + 1) (hfuel : x.length < fuel)
    (hsep : separators x < k) :
    getValueLoop buf len (count + UInt8.ofNat k) fuel c count start =
      some (some (skipSegments (separators x) x ++ 10 :: r), none) := by
  induction k generalizing fuel c count start x with
  | zero => exact absurd hsep (Nat.not_lt_zero _)
  | succ k ih =>
    obtain ⟨fuel, rfl⟩ := Nat.exists_eq_add_one_of_ne_zero
      (Nat.ne_zero_of_lt hfuel)
    rw [getValueLoop_next hbuf (by omega) (countPlace_ne count hk)]
    by_cases hnone : separators x = 0
    · -- the digits end at the newline, which is the last separator
      have hdig : x.takeWhile isDigit = x :=
        List.takeWhile_eq_self_iff.mpr (isDigit_of_mem hnone)
      rw [hdig, hnone, ← hlen, skipSegments]
      cases fuel with
      | zero => rfl
      | succ fuel => rw [getValueLoop, if_neg (Nat.lt_irrefl _)]
    · have hrest := separators_split hnone
      obtain ⟨hdrop, hlenx⟩ := drop_segment hbuf hnone
      rw [countPlace_succ, hrest, skipSegments]
      exact ih (by omega) _ _ _ _ hdrop (by omega) (by omega) (by omega)

/-- **`get_value` on a text of any content**, up to its last newline. -/
theorem getValue_text (x r : List UInt8) {place : Nat} (h1 : 1 ≤ place)
    (h256 : place ≤ 256) :
    getValue (x ++ 10 :: r) (x.length + 1) (UInt8.ofNat place) =
      some (some ((valueIn place x).1 ++ 10 :: r), (valueIn place x).2) := by
  unfold valueIn
  split
  · next hsep => exact getValue_line place h1 h256 (Nat.lt_succ_self _) hsep
  · next hsep =>
    obtain ⟨k, rfl⟩ := Nat.exists_eq_add_one_of_ne_zero
      (Nat.ne_zero_of_lt h1)
    have hplace : UInt8.ofNat (k + 1) = 1 + UInt8.ofNat k := by
      rw [UInt8.ofNat_add, UInt8.add_comm]
      rfl
    rw [getValue, hplace]
    exact getValueLoop_missing k (by omega) _ 0 1 none rfl (by omega)
      (Nat.lt_succ_self _) (by omega)

/-- At the end of the text there is no segment, and no pointer either. -/
theorem getValue_end (buf : List UInt8) (place : UInt8) :
    getValue buf 0 place = some (none, none) := rfl

/-! ### The path of the cursor -/

/-- The loop of `radio_comm` without its effects: the events it comes to, each
with the cursor behind its prefix, and where it stops.  It is undefined if a
comparison leaves the array or if the turns do not suffice. -/
def path (buf : List UInt8) (nbytes : Nat) :
    Nat → Nat → Option (List (Event × Nat) × Nat)
  | 0, c => if c < nbytes then none else some ([], c)
  | fuel + 1, c =>
    if c < nbytes then
      match recognise (buf.drop c) with
      | none => none
      | some none => path buf nbytes fuel (c + 1)
      | some (some ev) =>
        (path buf nbytes fuel (c + ev.skip)).map fun p =>
          ((ev, c + ev.skip) :: p.1, p.2)
    else some ([], c)

/-- The events of a path are handled one after the other. -/
def handleAll (buf : List UInt8) (nbytes : Nat) :
    List (Event × Nat) → UInt8 → Call → Traced RadioAct Call
  | [], _, s => pure s
  | (ev, c) :: evs, len, s => do
    let (len, s) ← handleEvent ev (buf.drop c) (sub32 nbytes c) len s
    handleAll buf nbytes evs len s

/-- The loop goes along its path. -/
theorem scan_eq_handleAll {buf : List UInt8} {nbytes fuel c e : Nat}
    {evs : List (Event × Nat)}
    (h : path buf nbytes fuel c = some (evs, e)) (len : UInt8) (s : Call) :
    scan buf nbytes fuel c len s = handleAll buf nbytes evs len s := by
  induction fuel generalizing c evs len s with
  | zero =>
    rw [path] at h
    split at h
    · cases h
    · cases h
      rfl
  | succ fuel ih =>
    rw [path] at h
    rw [scan]
    by_cases hc : c < nbytes
    · rw [if_pos hc] at h ⊢
      rcases hrec : recognise (buf.drop c) with - | - | ev
      · rw [hrec] at h
        cases h
      · rw [hrec] at h
        -- no event: the cursor goes one byte further
        have hbody : scanBody buf nbytes c len s = pure (c + 1, len, s) := by
          rw [scanBody, hrec]
          rfl
        rw [hbody, pure_bind]
        exact ih h len s
      · rw [hrec] at h
        -- an event: its values are read from behind the prefix
        obtain ⟨p, hp, hev⟩ := Option.map_eq_some_iff.mp h
        cases hev
        rw [scanBody, hrec, Traced.ofOption_some, pure_bind, bind_assoc,
          handleAll]
        congr 1
        funext t
        rw [pure_bind]
        exact ih hp t.1 t.2
    · rw [if_neg hc] at h ⊢
      cases h
      rfl

/-- One turn in front of the last newline, whatever lies behind it. -/
theorem drop_text {x : List UInt8} {c : Nat} (hc : c < x.length + 1)
    (r : List UInt8) :
    (x ++ 10 :: r).drop c = x.drop c ++ 10 :: r :=
  List.drop_append_of_le_length (Nat.le_of_lt_succ hc)

/-- **The path of a text** ends at its end and does not depend on what lies
behind; no cursor is outside the text. -/
theorem path_text (x : List UInt8) {fuel c : Nat} (hc : c ≤ x.length + 1)
    (hfuel : x.length + 1 ≤ c + fuel) :
    ∃ evs, (∀ r, path (x ++ 10 :: r) (x.length + 1) fuel c =
        some (evs, x.length + 1)) ∧
      ∀ e ∈ evs, c < e.2 ∧ e.2 ≤ x.length + 1 := by
  induction fuel generalizing c with
  | zero =>
    obtain rfl : c = x.length + 1 := by omega
    exact ⟨[], fun r => by rw [path, if_neg (Nat.lt_irrefl _)], by simp⟩
  | succ fuel ih =>
    by_cases hlt : c < x.length + 1
    · have hrec (r : List UInt8) :
          recognise ((x ++ 10 :: r).drop c) = some (eventAt (x.drop c)) := by
        rw [drop_text hlt]
        exact recognise_line _ r
      rcases hev : eventAt (x.drop c) with - | ev
      · obtain ⟨evs, hpath, hin⟩ := ih (c := c + 1) (by omega) (by omega)
        refine ⟨evs, fun r => ?_, fun e he => ?_⟩
        · rw [path, if_pos hlt, hrec, hev]
          exact hpath r
        · have := hin e he
          omega
      · -- the prefix lies in front of the newline
        obtain ⟨y, hy⟩ := eventAt_eq_some hev
        have hlen := congrArg List.length hy
        rw [List.length_drop, List.length_append] at hlen
        have hskip := ev.skip_eq
        obtain ⟨evs, hpath, hin⟩ := ih (c := c + ev.skip) (by omega)
          (by omega)
        refine ⟨(ev, c + ev.skip) :: evs, fun r => ?_, ?_⟩
        · rw [path, if_pos hlt, hrec, hev]
          exact congrArg (Option.map _) (hpath r)
        · rw [List.forall_mem_cons]
          refine ⟨⟨?_, ?_⟩, fun e he => ?_⟩
          · show c < c + ev.skip
            omega
          · show c + ev.skip ≤ x.length + 1
            omega
          · have := hin e he
            omega
    · obtain rfl : c = x.length + 1 := by omega
      exact ⟨[], fun r => by rw [path, if_neg (Nat.lt_irrefl _)], by simp⟩

/-- The events the cursor comes to in the first `nbytes` bytes. -/
def eventsIn (buf : List UInt8) (nbytes : Nat) : List (Event × Nat) :=
  ((path buf nbytes nbytes 0).map Prod.fst).getD []

/-- The path of a whole text. -/
theorem path_eventsIn (x r : List UInt8) :
    path (x ++ 10 :: r) (x.length + 1) (x.length + 1) 0 =
        some (eventsIn (x ++ 10 :: r) (x.length + 1), x.length + 1) ∧
      ∀ e ∈ eventsIn (x ++ 10 :: r) (x.length + 1),
        0 < e.2 ∧ e.2 ≤ x.length + 1 := by
  obtain ⟨evs, hpath, hin⟩ := path_text x (Nat.zero_le _)
    (Nat.le_add_left (x.length + 1) 0)
  have hevs : eventsIn (x ++ 10 :: r) (x.length + 1) = evs := by
    rw [eventsIn, hpath]
    rfl
  rw [hevs]
  exact ⟨hpath r, hin⟩

/-- `get_value` at a cursor of the text. -/
theorem getValue_at (x r : List UInt8) {c place : Nat}
    (hc : c < x.length + 1) (h1 : 1 ≤ place) (h256 : place ≤ 256) :
    getValue ((x ++ 10 :: r).drop c) (x.length + 1 - c) (UInt8.ofNat place) =
      some (some ((valueIn place (x.drop c)).1 ++ 10 :: r),
        (valueIn place (x.drop c)).2) := by
  have hlen : x.length + 1 - c = (x.drop c).length + 1 := by
    rw [List.length_drop]
    omega
  rw [drop_text hc, hlen]
  exact getValue_text _ _ h1 h256

/-- `get_value` behind it. -/
theorem getValue_behind {x : List UInt8} {c : Nat} (hc : ¬ c < x.length + 1)
    (buf : List UInt8) (place : UInt8) :
    getValue buf (x.length + 1 - c) place = some (none, none) := by
  rw [Nat.sub_eq_zero_of_le (Nat.le_of_not_lt hc)]
  exact getValue_end _ _

/-- Only in front of the last newline is there a separator. -/
theorem lt_of_separators {x : List UInt8} {c place : Nat} (h2 : 2 ≤ place)
    (h : place - 1 ≤ separators (x.drop c)) : c < x.length + 1 := by
  by_contra hend
  rw [List.drop_of_length_le (by omega)] at h
  have hnone : separators [] = 0 := rfl
  omega

/-- The values of an event do not depend on what lies behind the text; the
pointer is followed by it. -/
theorem getValue_inside (x : List UInt8) (c : Nat) (place : UInt8) :
    ∃ p n, ∀ r, getValue ((x ++ 10 :: r).drop c) (x.length + 1 - c) place =
      some (Option.map (· ++ r) p, n) := by
  obtain ⟨k, h1, h256, rfl⟩ : ∃ k, 1 ≤ k ∧ k ≤ 256 ∧ place = UInt8.ofNat k := by
    by_cases h0 : place.toNat = 0
    · exact ⟨256, by decide, by decide, UInt8.toNat_inj.mp h0⟩
    · refine ⟨place.toNat, by omega, Nat.le_of_lt place.toNat_lt, ?_⟩
      exact UInt8.ofNat_toNat.symm
  by_cases hlt : c < x.length + 1
  · refine ⟨some ((valueIn k (x.drop c)).1 ++ [10]),
      (valueIn k (x.drop c)).2, fun r => ?_⟩
    rw [getValue_at x r hlt h1 h256]
    simp
  · exact ⟨none, none, fun r => getValue_behind hlt _ _⟩

/-! ### The received bytes -/

/-- A buffer in which a text has been received. -/
def bufferOf (m : List UInt8) (h : m.length ≤ 256) : CArray UInt8 256 where
  cells := m ++ List.replicate (256 - m.length) 0
  size := by
    rw [List.length_append, List.length_replicate]
    omega

/-- The scan of the first `nbytes` bytes of a buffer stays inside them.  A
read outside an array is undefined, so what is defined on the received bytes
alone examines nothing behind them. -/
structure ScanInside (buf : List UInt8) (nbytes : Nat)
    (evs : List (Event × Nat)) : Prop where
  /-- the comparisons look at received bytes only, and the loop ends with
  `c == nbytes` -/
  ends : path (buf.take nbytes) nbytes nbytes 0 = some (evs, nbytes)
  /-- `nbytes-c` does not wrap around -/
  rest : ∀ e ∈ evs, e.2 ≤ nbytes ∧ sub32 nbytes e.2 = nbytes - e.2
  /-- `get_value` looks at received bytes only -/
  values : ∀ e ∈ evs, ∀ place, ∃ p n,
    getValue ((buf.take nbytes).drop e.2) (sub32 nbytes e.2) place =
      some (p, n) ∧
    ∀ b : List UInt8, b.take nbytes = buf.take nbytes →
      getValue (b.drop e.2) (sub32 nbytes e.2) place =
        some (p.map (· ++ b.drop nbytes), n)
  /-- what lies behind them does not matter -/
  same : ∀ b : List UInt8, b.take nbytes = buf.take nbytes →
    path b nbytes nbytes 0 = some (evs, nbytes)
  /-- these are the events that are handled -/
  handled : ∀ len s,
    scan buf nbytes nbytes 0 len s = handleAll buf nbytes evs len s

/-- A buffer whose text ends in a newline. -/
theorem exists_text {buf : CArray UInt8 256} {nbytes : Nat}
    (hpos : 1 ≤ nbytes) (hle : nbytes ≤ 256)
    (hlast : buf.cells[nbytes - 1]? = some 10) :
    ∃ x r, buf.cells = x ++ 10 :: r ∧ nbytes = x.length + 1 := by
  have hlen : (buf.cells.take (nbytes - 1)).length = nbytes - 1 := by
    rw [List.length_take, buf.size]
    omega
  refine ⟨buf.cells.take (nbytes - 1), buf.cells.drop nbytes, ?_, by omega⟩
  obtain ⟨hlt, hget⟩ := List.getElem?_eq_some_iff.mp hlast
  conv => lhs; rw [← List.take_append_drop (nbytes - 1) buf.cells]
  rw [List.drop_eq_getElem_cons hlt, hget, Nat.sub_add_cancel hpos]

theorem take_text (x r : List UInt8) :
    (x ++ 10 :: r).take (x.length + 1) = x ++ [10] := by
  rw [List.take_append, List.take_of_length_le (Nat.le_succ _),
    Nat.add_sub_cancel_left]
  rfl

/-- Another buffer with the same text. -/
theorem eq_text {b x : List UInt8} (h : b.take (x.length + 1) = x ++ [10]) :
    b = x ++ 10 :: b.drop (x.length + 1) := by
  conv => lhs; rw [← List.take_append_drop (x.length + 1) b, h]
  rw [List.append_assoc]
  rfl

/-- `nbytes-c` at a cursor inside the text. -/
theorem sub32_of_le {a b : Nat} (ha : a < 2 ^ 32) (h : b ≤ a) :
    sub32 a b = a - b := by
  unfold sub32
  omega

/-- **The scan stays inside the received bytes.** -/
theorem scan_inside {buf : CArray UInt8 256} {nbytes : Nat}
    (hpos : 1 ≤ nbytes) (hle : nbytes ≤ 256)
    (hlast : buf.cells[nbytes - 1]? = some 10) :
    ∃ evs, ScanInside buf.cells nbytes evs := by
  obtain ⟨x, r, hbuf, rfl⟩ := exists_text hpos hle hlast
  obtain ⟨evs, hpath, hin⟩ := path_text x (Nat.zero_le _)
    (Nat.le_add_left (x.length + 1) 0)
  have hrest : ∀ e ∈ evs, sub32 (x.length + 1) e.2 = x.length + 1 - e.2 :=
    fun e he => sub32_of_le (by omega) (hin e he).2
  have hsame : ∀ b : List UInt8, b.take (x.length + 1) = x ++ [10] →
      path b (x.length + 1) (x.length + 1) 0 = some (evs, x.length + 1) := by
    intro b hb
    rw [eq_text hb]
    exact hpath _
  rw [hbuf]
  refine ⟨evs, ?_, fun e he => ⟨(hin e he).2, hrest e he⟩, ?_, ?_, ?_⟩
  · rw [take_text]
    exact hpath []
  · intro e he place
    obtain ⟨p, n, hvalue⟩ := getValue_inside x e.2 place
    rw [hrest e he, take_text]
    refine ⟨p, n, (hvalue []).trans (by cases p <;> simp), fun b hb => ?_⟩
    conv => lhs; rw [eq_text hb]
    exact hvalue _
  · rw [take_text]
    exact hsame
  · exact scan_eq_handleAll (hpath r)

/-- The end of a call, in front of what is left of a longer text. -/
theorem scan_inside_call_end :
    let m := bytesOf "+CTCR:0,13\r\n+CTXG:0,3,0,0,0,255\r\n"
    ∃ evs, ScanInside (bufferOf m (by decide)).cells 12 evs :=
  scan_inside (by decide) (by decide) (by decide)

end Roip
