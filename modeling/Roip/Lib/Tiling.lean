/-
Roip/Lib/Tiling.lean

A region of memory that is tiled by blocks.

Every block has a header of `k` bytes in front of its data, and is free or in
use.  Space is taken from the first free block that has room, of which the
rest stays free when it can hold a header and `m` bytes (`firstFit`, `carve`);
a block that is given back is joined with the free blocks on both sides
(`release`), and one that is in use can be shortened (`shorten`).  None of
these leaves two free blocks side by side, so when every block has been given
back, the region is one free block again (`Tidy.eq_singleton`).

In memory the blocks are a doubly linked list of headers (`Chain`).  The list
is a matter of the headers alone: `Chain.congr` and `Chain.relink` say what a
write may do to it.
-/
import Mathlib.Algebra.GroupWithZero.Nat
import Mathlib.Data.List.Chain
import Mathlib.Tactic.Common

namespace Roip

/-- A block: the size of its data, and whether it is in use. -/
structure Tile where
  size : Nat
  used : Bool
deriving DecidableEq, Repr

namespace Tiling

section Extent

variable (k : Nat)

/-- The bytes the blocks take. -/
def extent (bs : List Tile) : Nat := (bs.map fun b => k + b.size).sum

@[simp] theorem extent_nil : extent k [] = 0 := rfl

@[simp] theorem extent_cons (b : Tile) (bs : List Tile) :
    extent k (b :: bs) = k + b.size + extent k bs := rfl

@[simp] theorem extent_append (xs ys : List Tile) :
    extent k (xs ++ ys) = extent k xs + extent k ys := by
  simp [extent]

/-- The blocks in use, each with the place of its header; the first header is
at `o`. -/
def inUse : Nat → List Tile → List (Nat × Nat)
  | _, [] => []
  | o, b :: bs =>
    (if b.used then [(o, b.size)] else []) ++ inUse (o + k + b.size) bs

/-- The places of the headers.  One stands behind the last block. -/
def headers : Nat → List Tile → List Nat
  | o, [] => [o]
  | o, b :: bs => o :: headers (o + k + b.size) bs

@[simp] theorem inUse_nil (o : Nat) : inUse k o [] = [] := rfl

@[simp] theorem inUse_cons (o : Nat) (b : Tile) (bs : List Tile) :
    inUse k o (b :: bs) = (if b.used then [(o, b.size)] else []) ++
      inUse k (o + k + b.size) bs := rfl

@[simp] theorem inUse_append (o : Nat) (xs ys : List Tile) :
    inUse k o (xs ++ ys) = inUse k o xs ++ inUse k (o + extent k xs) ys := by
  induction xs generalizing o with
  | nil => rfl
  | cons b xs ih =>
    simp only [List.cons_append, inUse_cons, ih, List.append_assoc,
      extent_cons, ← Nat.add_assoc]

/-- One block in use, with what is around it. -/
theorem inUse_middle (xs ys : List Tile) (s : Nat) :
    inUse k 0 (xs ++ ⟨s, true⟩ :: ys) =
      inUse k 0 xs ++ (extent k xs, s) :: inUse k (extent k xs + k + s) ys := by
  rw [inUse_append, inUse_cons, if_pos rfl, Nat.zero_add]
  rfl

/-- The place of the first free block, or the end. -/
def lowest : Nat → List Tile → Nat
  | o, [] => o
  | o, b :: bs => if b.used then lowest (o + k + b.size) bs else o

variable {k}

theorem inUse_bounds {o q s : Nat} {bs : List Tile}
    (h : (q, s) ∈ inUse k o bs) :
    o ≤ q ∧ q + k + s ≤ o + extent k bs := by
  induction bs generalizing o with
  | nil => cases h
  | cons b bs ih =>
    rw [inUse_cons, List.mem_append] at h
    rw [extent_cons]
    rcases h with h | h
    · split at h
      · obtain ⟨rfl, rfl⟩ := Prod.mk.inj (List.mem_singleton.mp h)
        omega
      · cases h
    · have := ih h
      omega

/-- **Blocks in use do not overlap**, their headers included. -/
theorem inUse_pairwise (o : Nat) (bs : List Tile) :
    (inUse k o bs).Pairwise fun x y => x.1 + k + x.2 ≤ y.1 := by
  induction bs generalizing o with
  | nil => exact List.Pairwise.nil
  | cons b bs ih =>
    rw [inUse_cons, List.pairwise_append]
    refine ⟨?_, ih _, ?_⟩
    · split
      · exact List.pairwise_singleton _ _
      · exact List.Pairwise.nil
    · rintro x hx ⟨q, s⟩ hy
      split at hx
      · obtain rfl := List.mem_singleton.mp hx
        exact (inUse_bounds hy).1
      · cases hx

theorem inUse_apart {o : Nat} {bs : List Tile} {x y : Nat × Nat}
    (hx : x ∈ inUse k o bs) (hy : y ∈ inUse k o bs) (hne : x ≠ y) :
    x.1 + k + x.2 ≤ y.1 ∨ y.1 + k + y.2 ≤ x.1 := by
  let R : Nat × Nat → Nat × Nat → Prop := fun x y =>
    x.1 + k + x.2 ≤ y.1 ∨ y.1 + k + y.2 ≤ x.1
  have hpair : (inUse k o bs).Pairwise R := (inUse_pairwise o bs).imp Or.inl
  have hsymm : Std.Symm R := ⟨fun _ _ h => h.symm⟩
  exact hpair.forall hx hy hne

/-- A block in use is one of the blocks. -/
theorem exists_of_mem_inUse {o q s : Nat} {bs : List Tile}
    (h : (q, s) ∈ inUse k o bs) :
    ∃ pre post, bs = pre ++ ⟨s, true⟩ :: post ∧ q = o + extent k pre := by
  induction bs generalizing o with
  | nil => cases h
  | cons b bs ih =>
    rw [inUse_cons, List.mem_append] at h
    rcases h with h | h
    · split at h
      · next hb =>
        obtain ⟨rfl, rfl⟩ := Prod.mk.inj (List.mem_singleton.mp h)
        obtain ⟨size, used⟩ := b
        obtain rfl : used = true := hb
        exact ⟨[], bs, rfl, rfl⟩
      · cases h
    · obtain ⟨pre, post, rfl, rfl⟩ := ih h
      exact ⟨b :: pre, post, rfl, by rw [extent_cons]; omega⟩

/-- No two blocks in use are at the same place. -/
theorem ne_of_inUse (hpos : 0 < k) {o q t : Nat} {bs : List Tile}
    {us vs : List (Nat × Nat)} (h : inUse k o bs = us ++ (q, t) :: vs) :
    ∀ y ∈ us ++ vs, y.1 ≠ q := by
  have hpair := inUse_pairwise (k := k) o bs
  rw [h, List.pairwise_append] at hpair
  obtain ⟨-, hvs, hus⟩ := hpair
  rintro y hy rfl
  rcases List.mem_append.mp hy with hy | hy
  · have := hus y hy _ List.mem_cons_self
    omega
  · have := (List.pairwise_cons.mp hvs).1 y hy
    omega

/-- Every header stands in front of the data of a block in use, or behind
it. -/
theorem headers_apart {o q s p : Nat} {bs : List Tile}
    (h : (q, s) ∈ inUse k o bs) (hp : p ∈ headers k o bs) :
    p ≤ q ∨ q + k + s ≤ p := by
  have hbelow {o p : Nat} {bs : List Tile} (hp : p ∈ headers k o bs) :
      o ≤ p := by
    induction bs generalizing o with
    | nil => exact Nat.le_of_eq (List.mem_singleton.mp hp).symm
    | cons b bs ih =>
      rcases List.mem_cons.mp hp with rfl | hp
      · exact Nat.le_refl _
      · have := ih hp
        omega
  induction bs generalizing o with
  | nil => cases h
  | cons b bs ih =>
    rw [inUse_cons, List.mem_append] at h
    rcases List.mem_cons.mp hp with rfl | hp
    · left
      rcases h with h | h
      · split at h
        · obtain ⟨rfl, -⟩ := Prod.mk.inj (List.mem_singleton.mp h)
          exact Nat.le_refl _
        · cases h
      · have := (inUse_bounds h).1
        omega
    · rcases h with h | h
      · split at h
        · obtain ⟨rfl, rfl⟩ := Prod.mk.inj (List.mem_singleton.mp h)
          exact Or.inr (hbelow hp)
        · cases h
      · exact ih h hp

theorem mem_headers_first (o : Nat) (bs : List Tile) :
    o ∈ headers k o bs := by
  cases bs <;> exact List.mem_cons_self

/-- Behind the first blocks is a header. -/
theorem mem_headers {o p : Nat} {xs ys : List Tile}
    (hp : p = o + extent k xs) : p ∈ headers k o (xs ++ ys) := by
  induction xs generalizing o with
  | nil => exact hp ▸ mem_headers_first o ys
  | cons b xs ih =>
    refine List.mem_cons_of_mem _ (ih ?_)
    rw [hp, extent_cons]
    omega

/-- A header depends on the sizes in front of it. -/
theorem headers_replace {o s : Nat} {u v : Bool} {xs ys : List Tile} :
    headers k o (xs ++ ⟨s, u⟩ :: ys) = headers k o (xs ++ ⟨s, v⟩ :: ys) := by
  induction xs generalizing o with
  | nil => rfl
  | cons b xs ih => exact congrArg (o :: ·) ih

/-- When two blocks become one, a header is gone. -/
theorem headers_join {o s t : Nat} {u v w : Bool} {xs ys : List Tile} :
    headers k o (xs ++ ⟨s + k + t, w⟩ :: ys) ⊆
      headers k o (xs ++ ⟨s, u⟩ :: ⟨t, v⟩ :: ys) := by
  induction xs generalizing o with
  | nil =>
    have hsum : o + k + (s + k + t) = o + k + s + k + t := by omega
    simp only [List.nil_append, headers, hsum]
    exact List.cons_subset_cons o (List.subset_cons_self _ _)
  | cons b xs ih => exact List.cons_subset_cons o ih

theorem lowest_bounds (o : Nat) (bs : List Tile) :
    o ≤ lowest k o bs ∧ lowest k o bs ≤ o + extent k bs := by
  induction bs generalizing o with
  | nil => exact ⟨Nat.le_refl o, Nat.le_refl o⟩
  | cons b bs ih =>
    rw [lowest, extent_cons]
    have := ih (o + k + b.size)
    split <;> omega

/-- The lowest free block is in the first part, unless that is all in use. -/
theorem lowest_append (hpos : 0 < k) (o : Nat) (xs ys : List Tile) :
    lowest k o (xs ++ ys) =
      if lowest k o xs = o + extent k xs then
        lowest k (o + extent k xs) ys
      else lowest k o xs := by
  induction xs generalizing o with
  | nil => exact (if_pos rfl).symm
  | cons b xs ih =>
    rw [List.cons_append, lowest, lowest, extent_cons]
    split
    · rw [ih, ← Nat.add_assoc, ← Nat.add_assoc]
    · rw [if_neg (by omega)]

theorem lowest_free (hpos : 0 < k) (o s : Nat) (xs ys : List Tile) :
    lowest k o (xs ++ ⟨s, false⟩ :: ys) = lowest k o xs := by
  rw [lowest_append hpos]
  split
  · next h => exact h.symm
  · rfl

/-- Blocks in front of the lowest free block are in use. -/
theorem exists_lowest (o : Nat) (bs : List Tile) :
    ∃ xs ys, bs = xs ++ ys ∧ (∀ b ∈ xs, b.used = true) ∧
      lowest k o bs = o + extent k xs ∧
      ∀ b ∈ ys.head?, b.used = false := by
  induction bs generalizing o with
  | nil => exact ⟨[], [], rfl, nofun, rfl, nofun⟩
  | cons b bs ih =>
    rcases hb : b.used with - | -
    · refine ⟨[], b :: bs, rfl, nofun, ?_, ?_⟩
      · rw [lowest, hb]
        rfl
      · rintro _ ⟨⟩
        exact hb
    · obtain ⟨xs, ys, rfl, hused, hlow, hfree⟩ := ih (o + k + b.size)
      refine ⟨b :: xs, ys, rfl, ?_, ?_, hfree⟩
      · rintro c hc
        rcases List.mem_cons.mp hc with rfl | hc
        · exact hb
        · exact hused c hc
      · rw [lowest, if_pos hb, hlow, extent_cons]
        omega

end Extent

/-! ### Tidy regions -/

/-- No two free blocks are neighbours. -/
def Apart (bs : List Tile) : Prop :=
  bs.IsChain fun b c => b.used = true ∨ c.used = true

/-- Free blocks are apart, every block has at least `m` bytes, and all sizes
are multiples of `a`. -/
structure Tidy (m a : Nat) (bs : List Tile) : Prop where
  apart : Apart bs
  least : ∀ b ∈ bs, m ≤ b.size
  aligned : ∀ b ∈ bs, a ∣ b.size

section Tidy

variable {k m a n s t : Nat} {bs pre post : List Tile}

theorem apart_used :
    Apart (pre ++ ⟨s, true⟩ :: post) ↔ Apart pre ∧ Apart post := by
  simp only [Apart, List.isChain_append, List.isChain_cons]
  constructor
  · rintro ⟨h₁, ⟨-, h₂⟩, -⟩
    exact ⟨h₁, h₂⟩
  · rintro ⟨h₁, h₂⟩
    refine ⟨h₁, ⟨fun _ _ => Or.inl trivial, h₂⟩, ?_⟩
    rintro b - _ ⟨⟩
    exact Or.inr rfl

theorem apart_free :
    Apart (pre ++ ⟨s, false⟩ :: post) ↔ Apart pre ∧ Apart post ∧
      (∀ b ∈ pre.getLast?, b.used = true) ∧
      ∀ b ∈ post.head?, b.used = true := by
  simp only [Apart, List.isChain_append, List.isChain_cons]
  constructor
  · rintro ⟨h₁, ⟨hpost, h₂⟩, hpre⟩
    refine ⟨h₁, h₂, fun b hb => ?_, fun b hb => ?_⟩
    · exact (hpre b hb _ rfl).resolve_right nofun
    · exact (hpost b hb).resolve_left nofun
  · rintro ⟨h₁, h₂, hpre, hpost⟩
    refine ⟨h₁, ⟨fun b hb => Or.inr (hpost b hb), h₂⟩, ?_⟩
    intro b hb _ _
    exact Or.inl (hpre b hb)

theorem apart_free_cons : Apart (⟨s, false⟩ :: post) ↔
    Apart post ∧ ∀ b ∈ post.head?, b.used = true := by
  have h : Apart ([] ++ ⟨s, false⟩ :: post) ↔ _ := apart_free
  simpa [Apart] using h

/-- **A region in which nothing is in use** is one free block. -/
theorem Tidy.eq_singleton (h : Tidy m a bs) (hfree : inUse k 0 bs = [])
    (hne : bs ≠ []) : bs = [⟨extent k bs - k, false⟩] := by
  rcases bs with - | ⟨⟨s, - | -⟩, bs⟩
  · exact absurd rfl hne
  · rcases bs with - | ⟨⟨t, - | -⟩, bs⟩
    · simp
    · have hpost := (apart_free_cons.mp h.apart).2
      cases hpost _ rfl
    · simp at hfree
  · simp at hfree

theorem Tidy.dvd_extent (h : Tidy m a bs) (ha : a ∣ k) :
    a ∣ extent k bs := by
  have haligned := h.aligned
  clear h
  induction bs with
  | nil => exact Nat.dvd_zero a
  | cons b bs ih =>
    rw [extent_cons]
    refine Nat.dvd_add (Nat.dvd_add ha (haligned b List.mem_cons_self)) ?_
    exact ih fun c hc => haligned c (List.mem_cons_of_mem b hc)

/-- A block may be replaced by tidy ones. -/
theorem Tidy.replace {b : Tile} {mid : List Tile}
    (h : Tidy m a (pre ++ b :: post)) (hapart : Apart (pre ++ mid ++ post))
    (hleast : ∀ c ∈ mid, m ≤ c.size) (haligned : ∀ c ∈ mid, a ∣ c.size) :
    Tidy m a (pre ++ mid ++ post) := by
  have hmem {c : Tile} (hc : c ∈ pre ++ mid ++ post) :
      c ∈ mid ∨ c ∈ pre ++ b :: post := by
    simp only [List.mem_append, List.mem_cons] at hc ⊢
    rcases hc with (hc | hc) | hc
    · exact Or.inr (Or.inl hc)
    · exact Or.inl hc
    · exact Or.inr (Or.inr (Or.inr hc))
  refine ⟨hapart, fun c hc => ?_, fun c hc => ?_⟩
  · exact (hmem hc).elim (hleast c) (h.least c)
  · exact (hmem hc).elim (haligned c) (h.aligned c)

end Tidy

/-! ### Taking a block -/

/-- The first free block with room for `n` bytes, and the blocks on both
sides. -/
def firstFit (n : Nat) : List Tile → Option (List Tile × Nat × List Tile)
  | [] => none
  | b :: bs =>
    if b.used = false ∧ n ≤ b.size then some ([], b.size, bs)
    else (firstFit n bs).map fun (pre, s, post) => (b :: pre, s, post)

/-- `n` bytes of a free block of `s` bytes are taken. -/
def carve (k m n s : Nat) : List Tile :=
  if n + k + m ≤ s then [⟨n, true⟩, ⟨s - n - k, false⟩] else [⟨s, true⟩]

section Take

variable {k m a n s : Nat} {bs pre post : List Tile}

theorem firstFit_eq_none_iff :
    firstFit n bs = none ↔ ∀ b ∈ bs, b.used = false → b.size < n := by
  induction bs with
  | nil => exact ⟨fun _ => nofun, fun _ => rfl⟩
  | cons b bs ih =>
    rw [firstFit, List.forall_mem_cons, ← ih]
    split
    · next h =>
      refine ⟨nofun, fun hno => ?_⟩
      have := hno.1 h.1
      omega
    · next h =>
      rw [Option.map_eq_none_iff]
      refine ⟨fun hno => ⟨fun hb => ?_, hno⟩, fun hno => hno.2⟩
      exact Nat.lt_of_not_le fun hn => h ⟨hb, hn⟩

theorem firstFit_eq_some (h : firstFit n bs = some (pre, s, post)) :
    bs = pre ++ ⟨s, false⟩ :: post ∧ n ≤ s ∧
      ∀ b ∈ pre, b.used = false → b.size < n := by
  induction bs generalizing pre with
  | nil => cases h
  | cons b bs ih =>
    rw [firstFit] at h
    split at h
    · next hb =>
      obtain ⟨rfl, rfl, rfl⟩ : [] = pre ∧ b.size = s ∧ bs = post := by
        simpa using h
      obtain ⟨size, used⟩ := b
      obtain rfl : used = false := hb.1
      exact ⟨rfl, hb.2, nofun⟩
    · next hb =>
      obtain ⟨⟨pre', s', post'⟩, h', heq⟩ := Option.map_eq_some_iff.mp h
      obtain ⟨rfl, rfl, rfl⟩ : b :: pre' = pre ∧ s' = s ∧ post' = post := by
        simpa using heq
      obtain ⟨rfl, hn, hpre⟩ := ih h'
      refine ⟨rfl, hn, ?_⟩
      rintro c hc hfree
      rcases List.mem_cons.mp hc with rfl | hc
      · exact Nat.lt_of_not_le fun hle => hb ⟨hfree, hle⟩
      · exact hpre c hc hfree

/-- The search may begin behind blocks in use. -/
theorem firstFit_append_used {xs : List Tile} (h : ∀ b ∈ xs, b.used = true)
    (ys : List Tile) :
    firstFit n (xs ++ ys) =
      (firstFit n ys).map fun (pre, s, post) => (xs ++ pre, s, post) := by
  induction xs with
  | nil => simp
  | cons b xs ih =>
    have hb : ¬ (b.used = false ∧ n ≤ b.size) := by
      rw [h b List.mem_cons_self]
      exact nofun
    rw [List.cons_append, firstFit, if_neg hb,
      ih fun c hc => h c (List.mem_cons_of_mem b hc), Option.map_map]
    rfl

theorem extent_carve : extent k (carve k m n s) = k + s := by
  unfold carve
  split
  · simp only [extent_cons, extent_nil]
    omega
  · rfl

theorem inUse_carve (o : Nat) (h : n ≤ s) :
    ∃ t, n ≤ t ∧ inUse k o (carve k m n s) = [(o, t)] := by
  unfold carve
  split
  · exact ⟨n, Nat.le_refl n, rfl⟩
  · exact ⟨s, h, rfl⟩

theorem Tidy.carve (h : Tidy m a (pre ++ ⟨s, false⟩ :: post)) (hn : m ≤ n)
    (ha : a ∣ n) (hk : a ∣ k) :
    Tidy m a (pre ++ carve k m n s ++ post) := by
  obtain ⟨hpre, hpost, -, hhead⟩ := apart_free.mp h.apart
  have hs : a ∣ s := h.aligned ⟨s, false⟩ (by simp)
  have hleast : m ≤ s := h.least ⟨s, false⟩ (by simp)
  refine h.replace ?_ ?_ ?_
  · unfold Tiling.carve
    split
    · rw [List.append_assoc]
      refine apart_used.mpr ⟨hpre, ?_⟩
      exact apart_free_cons.mpr ⟨hpost, hhead⟩
    · rw [List.append_assoc]
      exact apart_used.mpr ⟨hpre, hpost⟩
  · intro c hc
    unfold Tiling.carve at hc
    split at hc
    · rcases List.mem_cons.mp hc with rfl | hc
      · exact hn
      · obtain rfl := List.mem_singleton.mp hc
        show m ≤ s - n - k
        omega
    · obtain rfl := List.mem_singleton.mp hc
      exact hleast
  · intro c hc
    unfold Tiling.carve at hc
    split at hc
    · rcases List.mem_cons.mp hc with rfl | hc
      · exact ha
      · obtain rfl := List.mem_singleton.mp hc
        exact Nat.dvd_sub (Nat.dvd_sub hs ha) hk
    · obtain rfl := List.mem_singleton.mp hc
      exact hs

end Take

/-! ### Giving a block back -/

/-- A free block of `s` bytes takes in a free block behind it. -/
def joinNext (k s : Nat) : List Tile → Nat × List Tile
  | ⟨t, false⟩ :: post => (s + k + t, post)
  | post => (s, post)

/-- A free block of `s` bytes behind `pre` is taken in by a free block in
front of it. -/
def joinPrev (k s : Nat) : List Tile → List Tile
  | [] => [⟨s, false⟩]
  | [⟨t, false⟩] => [⟨t + k + s, false⟩]
  | b :: pre => b :: joinPrev k s pre

/-- A block of `s` bytes between `pre` and `post` becomes free. -/
def release (k : Nat) (pre : List Tile) (s : Nat) (post : List Tile) :
    List Tile :=
  joinPrev k (joinNext k s post).1 pre ++ (joinNext k s post).2

section Release

variable {k m a n s t : Nat} {pre post : List Tile}

@[simp] theorem joinNext_free :
    joinNext k s (⟨t, false⟩ :: post) = (s + k + t, post) := rfl

theorem joinNext_used (h : ∀ b ∈ post.head?, b.used = true) :
    joinNext k s post = (s, post) := by
  rcases post with - | ⟨⟨t, - | -⟩, post⟩
  · rfl
  · cases h _ rfl
  · rfl

theorem joinPrev_cons {b : Tile} (h : pre ≠ [] ∨ b.used = true) :
    joinPrev k s (b :: pre) = b :: joinPrev k s pre := by
  obtain ⟨t, - | -⟩ := b
  · rcases pre with - | ⟨c, pre⟩
    · simp at h
    · rfl
  · rfl

@[simp] theorem joinPrev_free :
    joinPrev k s (pre ++ [⟨t, false⟩]) = pre ++ [⟨t + k + s, false⟩] := by
  induction pre with
  | nil => rfl
  | cons b pre ih =>
    rw [List.cons_append, joinPrev_cons (Or.inl (by simp)), ih]
    rfl

theorem joinPrev_used (h : ∀ b ∈ pre.getLast?, b.used = true) :
    joinPrev k s pre = pre ++ [⟨s, false⟩] := by
  rcases List.eq_nil_or_concat pre with rfl | ⟨pre, ⟨t, - | -⟩, rfl⟩
  · rfl
  · cases h ⟨t, false⟩ (by simp)
  · clear h
    induction pre with
    | nil => rfl
    | cons b pre ih =>
      rw [List.concat_cons, joinPrev_cons (Or.inl (by simp)), ih]
      rfl

/-- The block in front takes part, or is in use. -/
theorem joinPrev_cases (k s : Nat) (pre : List Tile) :
    (∃ pre' t, pre = pre' ++ [⟨t, false⟩] ∧
      joinPrev k s pre = pre' ++ [⟨t + k + s, false⟩]) ∨
    ((∀ b ∈ pre.getLast?, b.used = true) ∧
      joinPrev k s pre = pre ++ [⟨s, false⟩]) := by
  rcases List.eq_nil_or_concat pre with rfl | ⟨pre', ⟨t, - | -⟩, rfl⟩
  · exact Or.inr ⟨nofun, rfl⟩
  · exact Or.inl ⟨pre', t, List.concat_eq_append, by simp⟩
  · have hused : ∀ b ∈ (pre'.concat ⟨t, true⟩).getLast?, b.used = true := by
      simp
    exact Or.inr ⟨hused, joinPrev_used hused⟩

/-- The block behind takes part, or is in use. -/
theorem joinNext_cases (k s : Nat) (post : List Tile) :
    (∃ t post', post = ⟨t, false⟩ :: post' ∧
      joinNext k s post = (s + k + t, post')) ∨
    ((∀ b ∈ post.head?, b.used = true) ∧
      joinNext k s post = (s, post)) := by
  rcases post with - | ⟨⟨t, - | -⟩, post'⟩
  · exact Or.inr ⟨nofun, rfl⟩
  · exact Or.inl ⟨t, post', rfl, rfl⟩
  · exact Or.inr ⟨by simp, rfl⟩

theorem extent_joinPrev :
    extent k (joinPrev k s pre) = extent k pre + (k + s) := by
  rcases joinPrev_cases k s pre with ⟨pre', t, rfl, heq⟩ | ⟨-, heq⟩ <;>
    rw [heq] <;> simp only [extent_append, extent_cons, extent_nil] <;> omega

theorem inUse_joinPrev (o : Nat) :
    inUse k o (joinPrev k s pre) = inUse k o pre := by
  rcases joinPrev_cases k s pre with ⟨pre', t, rfl, heq⟩ | ⟨-, heq⟩ <;>
    rw [heq] <;> simp

theorem inUse_joinNext (o : Nat) :
    inUse k (o + (joinNext k s post).1) (joinNext k s post).2 =
      inUse k (o + s) post := by
  rcases joinNext_cases k s post with ⟨t, post', rfl, heq⟩ | ⟨-, heq⟩ <;>
    rw [heq]
  simp only [inUse_cons, Bool.false_eq_true, if_false, List.nil_append]
  congr 1
  omega

/-- **Giving a block back** leaves the others in use where they are. -/
theorem inUse_release (o : Nat) :
    inUse k o (release k pre s post) =
      inUse k o pre ++ inUse k (o + extent k pre + k + s) post := by
  rw [release, inUse_append, inUse_joinPrev, extent_joinPrev,
    ← inUse_joinNext (o + extent k pre + k)]
  congr 2
  omega

theorem Tidy.release (h : Tidy m a (pre ++ ⟨s, true⟩ :: post))
    (hk : a ∣ k) : Tidy m a (release k pre s post) := by
  have hs : m ≤ s := h.least ⟨s, true⟩ (by simp)
  have has : a ∣ s := h.aligned ⟨s, true⟩ (by simp)
  -- the block is free, and takes in the one behind it
  obtain ⟨u, post', hnext, hfree⟩ : ∃ u post',
      joinNext k s post = (u, post') ∧
        ∃ b, Tidy m a (pre ++ b :: post') ∧ m ≤ u ∧ a ∣ u ∧
          Apart pre ∧ Apart post' ∧ ∀ b ∈ post'.head?, b.used = true := by
    obtain ⟨hpre, hpost⟩ := apart_used.mp h.apart
    rcases joinNext_cases k s post with ⟨t, post', rfl, heq⟩ | ⟨hused, heq⟩
    · obtain ⟨hpost', hhead⟩ := apart_free_cons.mp hpost
      refine ⟨_, _, heq, ⟨s, true⟩, ?_, by omega, ?_, hpre, hpost', hhead⟩
      · refine ⟨apart_used.mpr ⟨hpre, hpost'⟩, fun c hc => h.least c ?_,
          fun c hc => h.aligned c ?_⟩ <;>
        · simp only [List.mem_append, List.mem_cons] at hc ⊢
          tauto
      · have ht : a ∣ t := h.aligned ⟨t, false⟩ (by simp)
        exact Nat.dvd_add (Nat.dvd_add has hk) ht
    · exact ⟨_, _, heq, ⟨s, true⟩, h, hs, has, hpre, hpost, hused⟩
  obtain ⟨b, htidy, hu, hau, hpre, hpost, hhead⟩ := hfree
  rw [Tiling.release, hnext]
  rcases joinPrev_cases k u pre with ⟨pre', t, rfl, heq⟩ | ⟨hused, heq⟩
  · rw [heq]
    have ht : m ≤ t := htidy.least ⟨t, false⟩ (by simp)
    have hat : a ∣ t := htidy.aligned ⟨t, false⟩ (by simp)
    have hlast := (apart_free.mp hpre).2.2.1
    have hpre' := (apart_free.mp hpre).1
    refine ⟨?_, fun c hc => ?_, fun c hc => ?_⟩
    · rw [List.append_assoc]
      exact apart_free.mpr ⟨hpre', hpost, hlast, hhead⟩
    all_goals
      simp only [List.mem_append, List.mem_singleton] at hc
      rcases hc with (hc | rfl) | hc
    · exact htidy.least c (by simp [hc])
    · show m ≤ t + k + u
      omega
    · exact htidy.least c (by simp [hc])
    · exact htidy.aligned c (by simp [hc])
    · exact Nat.dvd_add (Nat.dvd_add hat hk) hau
    · exact htidy.aligned c (by simp [hc])
  · rw [heq]
    refine htidy.replace ?_ ?_ ?_
    · rw [List.append_assoc]
      exact apart_free.mpr ⟨hpre, hpost, hused, hhead⟩
    · rintro c hc
      obtain rfl := List.mem_singleton.mp hc
      exact hu
    · rintro c hc
      obtain rfl := List.mem_singleton.mp hc
      exact hau

/-- **Round trip.**  A block that is taken and given back leaves the region as
it was. -/
theorem release_carve (h : Apart (pre ++ ⟨s, false⟩ :: post)) :
    ∃ t rest, carve k m n s = ⟨t, true⟩ :: rest ∧
      release k pre t (rest ++ post) = pre ++ ⟨s, false⟩ :: post := by
  obtain ⟨-, -, hlast, hhead⟩ := apart_free.mp h
  unfold carve
  split
  · next hroom =>
    refine ⟨n, [⟨s - n - k, false⟩], rfl, ?_⟩
    rw [release, List.singleton_append, joinNext_free,
      joinPrev_used hlast, List.append_assoc, List.singleton_append]
    congr 3
    omega
  · refine ⟨s, [], rfl, ?_⟩
    rw [release, List.nil_append, joinNext_used hhead, joinPrev_used hlast,
      List.append_assoc, List.singleton_append]

end Release

/-! ### Shortening a block -/

/-- A block of `s` bytes in use is shortened to `n`.  The rest goes to a free
block behind it, or becomes one, if there is room for its header. -/
def shorten (k m n s : Nat) : List Tile → List Tile
  | ⟨t, false⟩ :: post => ⟨n, true⟩ :: ⟨t + (s - n), false⟩ :: post
  | post => carve k m n s ++ post

section Shorten

variable {k m a n s t : Nat} {pre post : List Tile}

theorem shorten_used (h : ∀ b ∈ post.head?, b.used = true) :
    shorten k m n s post = carve k m n s ++ post := by
  rcases post with - | ⟨⟨t, - | -⟩, post⟩
  · rfl
  · cases h _ rfl
  · rfl

theorem shorten_self (hpos : 0 < k) :
    shorten k m s s post = ⟨s, true⟩ :: post := by
  have hcarve : carve k m s s = [⟨s, true⟩] := if_neg (by omega)
  rcases post with - | ⟨⟨t, - | -⟩, post⟩
  · rw [shorten_used (by simp), hcarve]
    rfl
  · simp [shorten]
  · rw [shorten_used (by simp), hcarve]
    rfl

/-- **Shortening a block** keeps what it is shortened to, and the others. -/
theorem inUse_shorten (post : List Tile) (hn : n ≤ s) (o : Nat) :
    ∃ t, n ≤ t ∧ inUse k o (shorten k m n s post) =
      (o, t) :: inUse k (o + k + s) post := by
  have hused (h : ∀ b ∈ post.head?, b.used = true) :
      ∃ t, n ≤ t ∧ inUse k o (shorten k m n s post) =
        (o, t) :: inUse k (o + k + s) post := by
    obtain ⟨t, ht, heq⟩ := inUse_carve (k := k) (m := m) o hn
    refine ⟨t, ht, ?_⟩
    rw [shorten_used h, inUse_append, heq, extent_carve]
    simp [Nat.add_assoc]
  rcases post with - | ⟨⟨t, - | -⟩, post⟩
  · exact hused (by simp)
  · refine ⟨n, Nat.le_refl n, ?_⟩
    simp only [shorten, inUse_cons, if_true, Bool.false_eq_true, if_false,
      List.nil_append, List.singleton_append]
    congr 2
    omega
  · exact hused (by simp)

theorem Tidy.shorten (h : Tidy m a (pre ++ ⟨s, true⟩ :: post)) (hm : m ≤ n)
    (ha : a ∣ n) (hk : a ∣ k) :
    Tidy m a (pre ++ shorten k m n s post) := by
  obtain ⟨hpre, hpost⟩ := apart_used.mp h.apart
  have hused (hhead : ∀ b ∈ post.head?, b.used = true) :
      Tidy m a (pre ++ Tiling.shorten k m n s post) := by
    rw [shorten_used hhead, ← List.append_assoc]
    -- the rest of the block is free, and what is behind it is in use
    unfold Tiling.carve
    split
    · refine h.replace ?_ ?_ ?_
      · rw [List.append_assoc]
        refine apart_used.mpr ⟨hpre, ?_⟩
        exact apart_free_cons.mpr ⟨hpost, hhead⟩
      · simp only [List.forall_mem_cons, List.not_mem_nil, false_imp_iff,
          implies_true, and_true]
        omega
      · have hs : a ∣ s := h.aligned ⟨s, true⟩ (by simp)
        simp only [List.forall_mem_cons, List.not_mem_nil, false_imp_iff,
          implies_true, and_true]
        exact ⟨ha, Nat.dvd_sub (Nat.dvd_sub hs ha) hk⟩
    · rwa [List.append_assoc]
  rcases post with - | ⟨⟨t, - | -⟩, post⟩
  · exact hused nofun
  · obtain ⟨hpost', hhead⟩ := apart_free_cons.mp hpost
    have ht : m ≤ t := h.least ⟨t, false⟩ (by simp)
    have hat : a ∣ t := h.aligned ⟨t, false⟩ (by simp)
    have hs : a ∣ s := h.aligned ⟨s, true⟩ (by simp)
    refine ⟨?_, fun c hc => ?_, fun c hc => ?_⟩
    · refine apart_used.mpr ⟨hpre, ?_⟩
      exact apart_free_cons.mpr ⟨hpost', hhead⟩
    all_goals
      simp only [Tiling.shorten, List.mem_append, List.mem_cons] at hc
      rcases hc with hc | rfl | rfl | hc
    · exact h.least c (by simp [hc])
    · exact hm
    · show m ≤ t + (s - n)
      omega
    · exact h.least c (by simp [hc])
    · exact h.aligned c (by simp [hc])
    · exact ha
    · exact Nat.dvd_add hat (Nat.dvd_sub hs ha)
    · exact h.aligned c (by simp [hc])
  · exact hused (by simp)

end Shorten

/-! ### Chains of headers -/

/-- What a header says: where the next one is and the one in front, and
whether the block is in use. -/
structure Link where
  next : Nat
  prev : Nat
  used : Bool

/-- From `o`, behind the header `p`, on, the headers describe the blocks; the
chain ends at `e`, behind the header `q`. -/
def Chain (k : Nat) (link : Nat → Option Link) :
    Nat → Nat → List Tile → Nat → Nat → Prop
  | o, p, [], e, q => o = e ∧ p = q
  | o, p, b :: bs, e, q =>
    link o = some ⟨o + k + b.size, p, b.used⟩ ∧
      Chain k link (o + k + b.size) o bs e q

section Chain

variable {k : Nat} {link link' : Nat → Option Link} {o p e q p' : Nat}
  {b : Tile} {bs xs ys : List Tile}

theorem chain_cons :
    Chain k link o p (b :: bs) e q ↔
      link o = some ⟨o + k + b.size, p, b.used⟩ ∧
        Chain k link (o + k + b.size) o bs e q := Iff.rfl

/-- A chain can be cut anywhere. -/
theorem chain_append :
    Chain k link o p (xs ++ ys) e q ↔
      ∃ u v, Chain k link o p xs u v ∧ Chain k link u v ys e q := by
  induction xs generalizing o p with
  | nil =>
    constructor
    · intro h
      exact ⟨o, p, ⟨rfl, rfl⟩, h⟩
    · rintro ⟨u, v, ⟨rfl, rfl⟩, h⟩
      exact h
  | cons b xs ih =>
    rw [List.cons_append, chain_cons, ih]
    constructor
    · rintro ⟨hlink, u, v, hxs, hys⟩
      exact ⟨u, v, ⟨hlink, hxs⟩, hys⟩
    · rintro ⟨u, v, ⟨hlink, hxs⟩, hys⟩
      exact ⟨hlink, u, v, hxs, hys⟩

theorem Chain.end_eq (h : Chain k link o p bs e q) :
    e = o + extent k bs := by
  induction bs generalizing o p with
  | nil => exact h.1.symm
  | cons b bs ih =>
    rw [ih h.2, extent_cons]
    omega

/-- The headers of a chain. -/
theorem Chain.congr (h : Chain k link o p bs e q)
    (heq : ∀ i, o ≤ i → i + k ≤ e → link' i = link i) :
    Chain k link' o p bs e q := by
  induction bs generalizing o p with
  | nil => exact h
  | cons b bs ih =>
    obtain ⟨hlink, hrest⟩ := h
    have hend := hrest.end_eq
    refine ⟨?_, ih hrest fun i hi => heq i (by omega)⟩
    rw [heq o (Nat.le_refl o) (by omega)]
    exact hlink

/-- A chain is a matter of its headers. -/
theorem Chain.congr_headers (h : Chain k link o p bs e q)
    (heq : ∀ i ∈ headers k o bs, link' i = link i) :
    Chain k link' o p bs e q := by
  induction bs generalizing o p with
  | nil => exact h
  | cons b bs ih =>
    exact ⟨(heq o List.mem_cons_self).trans h.1,
      ih h.2 fun i hi => heq i (List.mem_cons_of_mem o hi)⟩

/-- A chain behind another header: the first of its headers is told. -/
theorem Chain.relink (h : Chain k link o p bs e q)
    (hfirst : ∀ n u, bs ≠ [] → link o = some ⟨n, p, u⟩ →
      link' o = some ⟨n, p', u⟩)
    (heq : ∀ i, o + k ≤ i → i + k ≤ e → link' i = link i) :
    ∃ q', Chain k link' o p' bs e q' := by
  rcases bs with - | ⟨b, bs⟩
  · exact ⟨p', h.1, rfl⟩
  · obtain ⟨hlink, hrest⟩ := h
    refine ⟨q, hfirst _ _ (by simp) hlink, hrest.congr fun i hi => heq i ?_⟩
    omega

end Chain

end Tiling

end Roip
