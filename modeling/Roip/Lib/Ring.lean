/-
Roip/Lib/Ring.lean

Ring buffers with free-running counters.

Item number `k` lives in the slot `k & (count - 1)`.  The counters `head` and
`tail` number the items ever inserted and ever taken.  A block of items is
copied to the slot of `head` and the slots behind it, up to the end of the
array, and the rest of the block to the slot of the new `head`.

`items` is the queue a ring stands for: what taking one item after the other
would give.  Taking items is right for any `count`; inserting is right when
each new item comes to lie in its slot and no two items of the ring share one
(`Fits`).  If `count` is not a power of two this is a restriction.
-/
import Mathlib.Algebra.Group.Nat.Defs
import Roip.Lib.CArray

namespace Roip

/-- A ring buffer of `count` items. -/
structure Ring (α : Type*) (count : Nat) where
  data : CArray α count
  head : Nat
  tail : Nat
deriving DecidableEq

namespace Ring

variable {α : Type*} {count : Nat} [Fact (0 < count)] {r r' : Ring α count}

/-! ### The operations -/

/-- The slot of item number `k`. -/
def slot (count : Nat) [Fact (0 < count)] (k : Nat) : Fin count :=
  ⟨k &&& (count - 1), Nat.lt_of_le_of_lt Nat.and_le_right
    (Nat.sub_lt Fact.out Nat.one_pos)⟩

/-- The number of items. -/
def getCount (r : Ring α count) : Nat := r.head - r.tail

/-- The number of items there is space for. -/
def getFree (r : Ring α count) : Nat := count - r.getCount

def isEmpty (r : Ring α count) : Bool := r.head == r.tail

/-- Forget all items. -/
def flush (r : Ring α count) : Ring α count := { r with head := 0, tail := 0 }

/-- Take the oldest item. -/
def pop (r : Ring α count) : Option (α × Ring α count) :=
  if r.isEmpty then none
  else some (r.data.get (slot count r.tail), { r with tail := r.tail + 1 })

/-- The length of the first segment of a block of `n` items. -/
def firstSegment (count : Nat) [Fact (0 < count)] (head n : Nat) : Nat :=
  min n (count - slot count head)

/-- Insert a block of items, as far as there is space; the number of items
inserted. -/
def insertMult (r : Ring α count) (xs : List α) :
    Option (Nat × Ring α count) := do
  -- no more than there is space for
  let xs := xs.take r.getFree
  let cnt1 := firstSegment count r.head xs.length
  let data ← r.data.memcpy (slot count r.head) (xs.take cnt1)
  let head := r.head + cnt1
  let data ← data.memcpy (slot count head) (xs.drop cnt1)
  some (xs.length, { r with data, head := head + (xs.length - cnt1) })

/-- Take up to `n` items, one after the other. -/
def drain : Nat → Ring α count → List α × Ring α count
  | 0, r => ([], r)
  | n + 1, r =>
    match r.pop with
    | none => ([], r)
    | some (x, r) => (x :: (drain n r).1, (drain n r).2)

/-! ### The queue -/

/-- Item number `k`. -/
def item (r : Ring α count) (k : Nat) : α := r.data.get (slot count k)

/-- The items, the oldest one first. -/
def items (r : Ring α count) : List α :=
  (List.range' r.tail r.getCount).map r.item

/-- The counters of a ring. -/
structure Valid (r : Ring α count) : Prop where
  le : r.tail ≤ r.head
  room : r.getCount ≤ count

@[simp] theorem length_items (r : Ring α count) :
    r.items.length = r.getCount := by
  simp [items]

theorem items_of_isEmpty (h : r.isEmpty = true) : r.items = [] := by
  rw [isEmpty, beq_iff_eq] at h
  rw [items, getCount, h, Nat.sub_self]
  rfl

theorem items_of_empty (data : CArray α count) (k : Nat) :
    items ⟨data, k, k⟩ = [] :=
  items_of_isEmpty (r := ⟨data, k, k⟩) (beq_self_eq_true k)

theorem items_flush (r : Ring α count) : r.flush.items = [] := rfl

omit [Fact (0 < count)] in
theorem valid_flush (r : Ring α count) : r.flush.Valid :=
  ⟨Nat.le_refl 0, Nat.zero_le count⟩

omit [Fact (0 < count)] in
theorem valid_of_empty (data : CArray α count) (k : Nat) :
    Valid ⟨data, k, k⟩ := by
  refine ⟨Nat.le_refl k, ?_⟩
  rw [getCount, Nat.sub_self]
  exact Nat.zero_le count

/-- Taking an item. -/
theorem pop_spec (h : r.Valid) :
    (r.items = [] ∧ r.pop = none) ∨
      ∃ x r', r.pop = some (x, r') ∧ r.items = x :: r'.items ∧ r'.Valid := by
  have hle := h.le
  have hroom := h.room
  rw [getCount] at hroom
  by_cases he : r.isEmpty = true
  · exact Or.inl ⟨items_of_isEmpty he, if_pos he⟩
  · have hne : r.head ≠ r.tail := fun h => he (beq_iff_eq.mpr h)
    refine Or.inr ⟨_, _, if_neg he, ?_, ⟨?_, ?_⟩⟩
    · have hcount : r.getCount = r.head - (r.tail + 1) + 1 := by
        rw [getCount]
        omega
      rw [items, hcount, List.range'_succ]
      rfl
    · show r.tail + 1 ≤ r.head
      omega
    · show r.head - (r.tail + 1) ≤ count
      omega

/-- Taking up to `n` items. -/
theorem drain_spec (h : r.Valid) (n : Nat) :
    (r.drain n).1 = r.items.take n ∧ (r.drain n).2.items = r.items.drop n ∧
      (r.drain n).2.Valid := by
  induction n generalizing r with
  | zero => exact ⟨rfl, rfl, h⟩
  | succ n ih =>
    rcases pop_spec h with ⟨hnil, hpop⟩ | ⟨x, r', hpop, hcons, h'⟩
    · simp only [drain, hpop]
      rw [hnil]
      exact ⟨rfl, rfl, h⟩
    · obtain ⟨ih₁, ih₂, ih₃⟩ := ih h'
      simp only [drain, hpop]
      rw [hcons, ih₁]
      exact ⟨rfl, ih₂, ih₃⟩

/-! ### Inserting -/

/-- Where item number `head + i` of a block of `n` items is copied to. -/
def addr (count : Nat) [Fact (0 < count)] (head n i : Nat) : Nat :=
  let cnt1 := firstSegment count head n
  if i < cnt1 then slot count head + i
  else slot count (head + cnt1) + (i - cnt1)

/-- A block of `n` items can be inserted: each of them is copied to its slot,
and then no two items share a slot. -/
structure Fits (r : Ring α count) (n : Nat) : Prop where
  placed : ∀ i < n, addr count r.head n i = slot count (r.head + i)
  apart : ∀ k < r.head + n, ∀ j < k, r.tail ≤ j →
    slot count j ≠ slot count k

instance (r : Ring α count) (n : Nat) : Decidable (r.Fits n) :=
  decidable_of_iff (_ ∧ _) ⟨fun h => ⟨h.1, h.2⟩, fun h => ⟨h.placed, h.apart⟩⟩

section Insert

variable {xs : List α} {n : Nat}

/-- What the queue says about the items after a block has been inserted. -/
theorem items_eq_append_iff (h : r.Valid)
    (hhead : r'.head = r.head + xs.length) (htail : r'.tail = r.tail) :
    r'.items = r.items ++ xs ↔
      (∀ k, r.tail ≤ k → k < r.head → r'.item k = r.item k) ∧
        ∀ (i : Nat) (hi : i < xs.length), r'.item (r.head + i) = xs[i] := by
  have hle := h.le
  have hcount : r'.getCount = r.getCount + xs.length := by
    rw [getCount, getCount, hhead, htail]
    omega
  have hqueue : r.tail + r.getCount = r.head := by
    rw [getCount]
    omega
  -- the items are those that were queued and, behind them, the block
  have hsplit : r'.items = (List.range' r.tail r.getCount).map r'.item ++
      (List.range' r.head xs.length).map r'.item := by
    rw [items, htail, hcount, ← List.range'_append_1, List.map_append, hqueue]
  have hparts {ys zs : List α} (hlen : ys.length = r.items.length) :
      ys ++ zs = r.items ++ xs ↔ ys = r.items ∧ zs = xs :=
    ⟨fun heq => List.append_inj heq hlen, fun heq => by rw [heq.1, heq.2]⟩
  rw [hsplit, hparts (by simp), items]
  apply and_congr
  · rw [List.map_inj_left]
    simp only [List.mem_range'_1, hqueue, and_imp]
  · constructor
    · intro heq i hi
      have hget := List.getElem_of_eq heq.symm hi
      rw [List.getElem_map, List.getElem_range', Nat.one_mul] at hget
      exact hget.symm
    · intro heq
      apply List.ext_getElem
      · rw [List.length_map, List.length_range']
      · intro i _ hi
        rw [List.getElem_map, List.getElem_range', Nat.one_mul, heq i hi]

/-- **Inserting, cell by cell.**  A cell holds an item that has been copied to
it, or nothing has and it keeps its content. -/
theorem insertMult_spec (hfree : xs.length ≤ r.getFree)
    (h : r.insertMult xs = some (n, r')) :
    n = xs.length ∧ r'.head = r.head + xs.length ∧ r'.tail = r.tail ∧
      ∀ a : Fin count,
        (∃ (i : Nat) (hi : i < xs.length),
          addr count r.head xs.length i = a ∧ r'.data.get a = xs[i]) ∨
        (∀ i < xs.length, addr count r.head xs.length i ≠ a) ∧
          r'.data.get a = r.data.get a := by
  rw [insertMult, List.take_of_length_le hfree] at h
  simp only [Option.bind_eq_bind, Option.bind_eq_some_iff,
    Option.some.injEq] at h
  obtain ⟨d₁, h₁, d₂, h₂, h⟩ := h
  obtain ⟨rfl, rfl⟩ := Prod.mk.inj h
  generalize hc : firstSegment count r.head xs.length = c at h₁ h₂
  have hle : c ≤ xs.length := by
    rw [← hc]
    exact Nat.min_le_left _ _
  have hlen₁ : (xs.take c).length = c := by
    rw [List.length_take, Nat.min_eq_left hle]
  have hlen₂ : (xs.drop c).length = xs.length - c := List.length_drop
  have haddr (i : Nat) : addr count r.head xs.length i =
      if i < c then slot count r.head + i
      else slot count (r.head + c) + (i - c) := by
    rw [addr, hc]
  have hhead : r.head + c + (xs.length - c) = r.head + xs.length := by omega
  refine ⟨rfl, hhead, rfl, ?_⟩
  intro a
  show (∃ i, ∃ hi : i < xs.length, _ ∧ d₂.get a = xs[i]) ∨
    _ ∧ d₂.get a = _
  -- the second segment is copied last
  by_cases hin₂ : slot count (r.head + c) ≤ a.1 ∧
      a.1 < slot count (r.head + c) + (xs.length - c)
  · refine Or.inl ⟨c + (a - slot count (r.head + c)), by omega, ?_, ?_⟩
    · rw [haddr, if_neg (by omega)]
      omega
    · rw [CArray.get_memcpy_inside (j := a - slot count (r.head + c)) h₂
        (by omega) (by omega), List.getElem_drop]
  rw [CArray.get_memcpy_outside h₂ (by omega)]
  by_cases hin₁ : slot count r.head ≤ a.1 ∧ a.1 < slot count r.head + c
  · refine Or.inl ⟨a - slot count r.head, by omega, ?_, ?_⟩
    · rw [haddr, if_pos (by omega)]
      omega
    · rw [CArray.get_memcpy_inside (j := a - slot count r.head) h₁
        (by omega) (by omega), List.getElem_take]
  · refine Or.inr ⟨?_, CArray.get_memcpy_outside h₁ (by omega)⟩
    intro i hi
    rw [haddr]
    split <;> omega

/-- A block is inserted if its last item is copied into the array. -/
theorem exists_insertMult (hfree : xs.length ≤ r.getFree)
    (h : ∀ i < xs.length, addr count r.head xs.length i < count) :
    ∃ r', r.insertMult xs = some (xs.length, r') := by
  rw [insertMult, List.take_of_length_le hfree]
  dsimp only
  generalize hc : firstSegment count r.head xs.length = c
  have hle : c ≤ xs.length ∧ c ≤ count - slot count r.head := by
    rw [← hc]
    exact ⟨Nat.min_le_left _ _, Nat.min_le_right _ _⟩
  have hroom₁ : slot count r.head + (xs.take c).length ≤ count := by
    rw [List.length_take]
    have := (slot count r.head).2
    omega
  have hroom₂ : slot count (r.head + c) + (xs.drop c).length ≤ count := by
    rw [List.length_drop]
    have hslot := (slot count (r.head + c)).2
    rcases Nat.lt_or_ge c xs.length with hlt | hge
    · have hlast := h (xs.length - 1) (by omega)
      rw [addr, hc, if_neg (by omega)] at hlast
      omega
    · omega
  rw [CArray.memcpy, dif_pos hroom₁, Option.bind_eq_bind, Option.bind_some,
    CArray.memcpy, dif_pos hroom₂]
  exact ⟨_, rfl⟩

/-- **Inserting.**  A block that fits joins the queue. -/
theorem insertMult_of_fits (h : r.Valid) (hfree : xs.length ≤ r.getFree)
    (hf : r.Fits xs.length) :
    ∃ r', r.insertMult xs = some (xs.length, r') ∧
      r'.items = r.items ++ xs ∧ r'.Valid := by
  obtain ⟨r', hr'⟩ := exists_insertMult hfree fun i hi => by
    rw [hf.placed i hi]
    exact (slot count _).2
  obtain ⟨-, hhead, htail, hcell⟩ := insertMult_spec hfree hr'
  have hle := h.le
  refine ⟨r', hr', (items_eq_append_iff h hhead htail).mpr ⟨?_, ?_⟩, ?_, ?_⟩
  · -- nothing is copied over an item that was there before
    intro k hk hkh
    rcases hcell (slot count k) with ⟨i, hi, heq, -⟩ | ⟨-, hsame⟩
    · rw [hf.placed i hi] at heq
      exact absurd (Fin.ext heq.symm) (hf.apart _ (by omega) k (by omega) hk)
    · exact hsame
  · -- what lies in the slot of a new item is that item
    intro i hi
    rcases hcell (slot count (r.head + i)) with ⟨k, hk, heq, hget⟩ | ⟨hno, -⟩
    · rw [hf.placed k hk] at heq
      have hslot := Fin.ext heq
      rcases Nat.lt_trichotomy k i with hlt | rfl | hlt
      · exact absurd hslot (hf.apart _ (by omega) _ (by omega) (by omega))
      · exact hget
      · exact absurd hslot.symm (hf.apart _ (by omega) _ (by omega) (by omega))
    · exact absurd (hf.placed i hi) (hno i hi)
  · rw [hhead, htail]
    omega
  · have hroom := h.room
    rw [getFree] at hfree
    rw [getCount] at hfree hroom ⊢
    omega

end Insert

/-- A block is inserted from item 0 on, as far as the items have the slots of
their numbers. -/
theorem fits_of_start {n : Nat} (hslot : ∀ k < n, (slot count k).1 = k)
    (hhead : r.head = 0) : r.Fits n := by
  rcases Nat.eq_zero_or_pos n with rfl | hpos
  · refine ⟨fun i hi => absurd hi (Nat.not_lt_zero i), fun k hk => ?_⟩
    rw [hhead] at hk
    exact absurd hk (Nat.not_lt_zero k)
  have hzero := hslot 0 hpos
  have hlast := (slot count (n - 1)).2
  rw [hslot (n - 1) (by omega)] at hlast
  constructor
  · intro i hi
    rw [hhead, Nat.zero_add, hslot i hi, addr, firstSegment, hzero,
      if_pos (by omega), Nat.zero_add]
  · intro k hk j hj _ heq
    have hval := congrArg Fin.val heq
    rw [hslot j (by omega), hslot k (by omega)] at hval
    omega

/-! ### A power of two -/

/-- If the size is a power of two, the slots come round. -/
theorem slot_two_pow {n : Nat} (hcount : count = 2 ^ n) (k : Nat) :
    (slot count k).1 = k % count := by
  show k &&& (count - 1) = k % count
  rw [hcount, Nat.and_two_pow_sub_one_eq_mod]

/-- **A ring whose size is a power of two** takes every block there is space
for. -/
theorem fits_two_pow {n m : Nat} (hcount : count = 2 ^ n) (h : r.Valid)
    (hfree : m ≤ r.getFree) : r.Fits m := by
  have hpos : 0 < count := Fact.out
  have hle := h.le
  have hroom := h.room
  rw [getFree] at hfree
  rw [getCount] at hfree hroom
  constructor
  · intro i hi
    have hslot := slot_two_pow hcount
    simp only [addr, firstSegment, hslot]
    have hlt := Nat.mod_lt r.head hpos
    split
    · next hin =>
      rw [← Nat.mod_add_mod, Nat.mod_eq_of_lt (a := r.head % count + i)
        (by omega)]
    · next hout =>
      -- the second segment begins at the first slot
      have hmin : min m (count - r.head % count) = count - r.head % count :=
        Nat.min_eq_right (by omega)
      rw [hmin] at hout ⊢
      have hzero : (r.head + (count - r.head % count)) % count = 0 := by
        rw [← Nat.mod_add_mod, Nat.add_sub_cancel' (Nat.le_of_lt hlt),
          Nat.mod_self]
      have hrest : i - (count - r.head % count) < count := by omega
      have hsplit : r.head + i = r.head + (count - r.head % count) +
          (i - (count - r.head % count)) := by omega
      rw [hzero, Nat.zero_add, hsplit, Nat.add_mod (r.head + _), hzero,
        Nat.zero_add, Nat.mod_mod, Nat.mod_eq_of_lt hrest]
  · intro k hk j hj htail heq
    have hmod := congrArg Fin.val heq
    rw [slot_two_pow hcount, slot_two_pow hcount] at hmod
    have hdiv : count ∣ k - j :=
      Nat.dvd_of_mod_eq_zero (Nat.sub_mod_eq_zero_of_mod_eq hmod.symm)
    have := Nat.le_of_dvd (by omega) hdiv
    omega

end Ring

end Roip
