/-
Roip/Lib/Pieces.lean

Pieces of a stream.

A piece is a place in the stream and something of a certain length that lies
there.  A collection of pieces may be spread over several lists, each in the
order of the places: what matters is that the pieces lie apart from each other
(`Apart`), and which part of the stream they cover (`Covers`).

A sender that has not been told that its data have arrived holds the end of
the stream in pieces, some in flight and some waiting (`Held`).  It may extend
the last piece or append another one, move pieces between the two lists, and
drop those that have arrived.
-/
import Mathlib.Data.List.Forall2
import Mathlib.Data.List.Sort
import Mathlib.Data.List.TakeWhile
import Mathlib.Tactic.Common

namespace Roip

namespace Pieces

/-! ### Lists in step -/

section InStep

variable {α β : Type*} {R : α → β → Prop} {p : α → Bool} {q : β → Bool}
variable {l : List α} {l' : List β}

/-- Two lists in step are cut at the same place. -/
theorem forall₂_takeWhile (h : List.Forall₂ R l l')
    (hpq : ∀ x, ∀ y ∈ l', R x y → p x = q y) :
    List.Forall₂ R (l.takeWhile p) (l'.takeWhile q) := by
  induction h with
  | nil => exact List.Forall₂.nil
  | @cons x y l l' hxy h ih =>
    rw [List.takeWhile_cons, List.takeWhile_cons,
      hpq x y List.mem_cons_self hxy]
    split
    · exact List.Forall₂.cons hxy
        (ih fun x y hy => hpq x y (List.mem_cons_of_mem _ hy))
    · exact List.Forall₂.nil

theorem forall₂_dropWhile (h : List.Forall₂ R l l')
    (hpq : ∀ x, ∀ y ∈ l', R x y → p x = q y) :
    List.Forall₂ R (l.dropWhile p) (l'.dropWhile q) := by
  induction h with
  | nil => exact List.Forall₂.nil
  | @cons x y l l' hxy h ih =>
    rw [List.dropWhile_cons, List.dropWhile_cons,
      hpq x y List.mem_cons_self hxy]
    split
    · exact ih fun x y hy => hpq x y (List.mem_cons_of_mem _ hy)
    · exact List.Forall₂.cons hxy h

/-- The last elements of two lists in step. -/
theorem forall₂_concat {x : α} (h : List.Forall₂ R (l ++ [x]) l') :
    ∃ l₁ y, l' = l₁ ++ [y] ∧ List.Forall₂ R l l₁ ∧ R x y := by
  have hrev := List.forall₂_reverse_iff.mpr h
  rw [List.reverse_concat] at hrev
  obtain ⟨y, l₂, hxy, hrest, hl'⟩ := List.forall₂_cons_left_iff.mp hrev
  refine ⟨l₂.reverse, y, ?_, ?_, hxy⟩
  · rw [← List.reverse_reverse l', hl', List.reverse_cons]
  · rw [← List.forall₂_reverse_iff, List.reverse_reverse]
    exact hrest

/-- Each element has its companion in the other list. -/
theorem forall₂_mem_left (h : List.Forall₂ R l l') {x : α} (hx : x ∈ l) :
    ∃ y ∈ l', R x y := by
  induction h with
  | nil => cases hx
  | @cons z y l l' hzy h ih =>
    rcases List.mem_cons.mp hx with rfl | hx
    · exact ⟨y, List.mem_cons_self, hzy⟩
    · obtain ⟨w, hw, hxw⟩ := ih hx
      exact ⟨w, List.mem_cons_of_mem y hw, hxw⟩

theorem forall₂_mem_right (h : List.Forall₂ R l l') {y : β} (hy : y ∈ l') :
    ∃ x ∈ l, R x y := by
  obtain ⟨x, hx, hyx⟩ := forall₂_mem_left h.flip hy
  exact ⟨x, hx, hyx⟩

/-- What holds of any two companions. -/
theorem forall₂_pairwise {P : β → β → Prop} (h : List.Forall₂ R l l')
    (hp : l'.Pairwise P) :
    l.Pairwise fun a b => ∃ x ∈ l', ∃ y ∈ l', R a x ∧ R b y ∧ P x y := by
  induction h with
  | nil => exact List.Pairwise.nil
  | @cons a x l l' hax h ih =>
    obtain ⟨hhead, htail⟩ := List.pairwise_cons.mp hp
    refine List.pairwise_cons.mpr ⟨fun b hb => ?_, (ih htail).imp ?_⟩
    · obtain ⟨y, hy, hby⟩ := forall₂_mem_left h hb
      exact ⟨x, List.mem_cons_self, y, List.mem_cons_of_mem x hy, hax, hby,
        hhead y hy⟩
    · rintro b c ⟨y, hy, z, hz, hby, hcz, hyz⟩
      exact ⟨y, List.mem_cons_of_mem x hy, z, List.mem_cons_of_mem x hz, hby,
        hcz, hyz⟩

/-- What is dropped in front does not matter for the last element. -/
theorem getLast?_dropWhile (h : l.dropWhile p ≠ []) :
    (l.dropWhile p).getLast? = l.getLast? := by
  rw [← List.getLast?_append_of_ne_nil (l.takeWhile p) h,
    List.takeWhile_append_dropWhile]

end InStep

variable {α : Type*}

/-- In the order of the places. -/
def Early (x y : Nat × α) : Prop := x.1 ≤ y.1

instance : DecidableRel (@Early α) := fun x y =>
  inferInstanceAs (Decidable (x.1 ≤ y.1))

instance : Std.Total (@Early α) := ⟨fun x y => Nat.le_total x.1 y.1⟩

instance : IsTrans (Nat × α) Early := ⟨fun _ _ _ => Nat.le_trans⟩

/-- The place of a piece among others. -/
def insertEarly (x : Nat × α) (l : List (Nat × α)) : List (Nat × α) :=
  l.takeWhile (fun y => y.1 < x.1) ++ x :: l.dropWhile fun y => y.1 < x.1

theorem insertEarly_eq (x : Nat × α) (l : List (Nat × α)) :
    insertEarly x l = l.orderedInsert Early x := by
  have hp : (fun y : Nat × α => decide (y.1 < x.1)) =
      fun y => decide (¬ Early x y) := by
    funext y
    rw [decide_eq_decide, Early, Nat.not_le]
  rw [insertEarly, List.orderedInsert_eq_take_drop, hp]

theorem insertEarly_perm (x : Nat × α) (l : List (Nat × α)) :
    (insertEarly x l).Perm (x :: l) := by
  rw [insertEarly_eq]
  exact List.perm_orderedInsert Early x l

theorem pairwise_insertEarly (x : Nat × α) {l : List (Nat × α)}
    (h : l.Pairwise Early) : (insertEarly x l).Pairwise Early := by
  rw [insertEarly_eq]
  exact List.Pairwise.orderedInsert x l h

theorem pairwise_concat {x y : Nat × α} {l : List (Nat × α)}
    (h : (l ++ [y]).Pairwise Early) (hyx : Early y x) :
    (l ++ [y] ++ [x]).Pairwise Early := by
  refine List.pairwise_append.mpr ⟨h, List.pairwise_singleton _ _, ?_⟩
  intro z hz w hw
  rw [List.mem_singleton.mp hw]
  rcases List.mem_append.mp hz with hz | hz
  · exact Nat.le_trans ((List.pairwise_append.mp h).2.2 z hz y
      (List.mem_singleton.mpr rfl)) hyx
  · rw [List.mem_singleton.mp hz]
    exact hyx

variable (len : α → Nat)

/-- Where a piece ends. -/
def stop (x : Nat × α) : Nat := x.1 + len x.2

/-- Two pieces that do not overlap. -/
def Apart (x y : Nat × α) : Prop := stop len x ≤ y.1 ∨ stop len y ≤ x.1

/-- The stream from `a` to `b` is covered. -/
def Covers (l : List (Nat × α)) (a b : Nat) : Prop :=
  ∀ k, a ≤ k → k < b → ∃ x ∈ l, x.1 ≤ k ∧ k < stop len x

variable {len} {l l' : List (Nat × α)} {a b c : Nat} {x y : Nat × α}

theorem Apart.symm (h : Apart len x y) : Apart len y x := Or.symm h

theorem Apart.congr {x' y' : Nat × α} (h : Apart len x y) (hx : x'.1 = x.1)
    (hxs : stop len x' = stop len x) (hy : y'.1 = y.1)
    (hys : stop len y' = stop len y) : Apart len x' y' := by
  rwa [Apart, hx, hxs, hy, hys]

/-- Pieces that lie apart do so in any order. -/
theorem pairwise_apart_perm (hperm : l.Perm l')
    (h : l.Pairwise (Apart len)) : l'.Pairwise (Apart len) :=
  (hperm.pairwise_iff Apart.symm).mp h

theorem Covers.subset (h : Covers len l a b) (hsub : l ⊆ l') :
    Covers len l' a b := by
  intro k ha hb
  obtain ⟨x, hx, hk⟩ := h k ha hb
  exact ⟨x, hsub hx, hk⟩

theorem Covers.append (h : Covers len l a b) (h' : Covers len l' b c) :
    Covers len (l ++ l') a c := by
  intro k ha hc
  rcases Nat.lt_or_ge k b with hb | hb
  · obtain ⟨x, hx, hk⟩ := h k ha hb
    exact ⟨x, List.mem_append_left _ hx, hk⟩
  · obtain ⟨x, hx, hk⟩ := h' k hb hc
    exact ⟨x, List.mem_append_right _ hx, hk⟩

/-- Pieces that end before `c` do not cover anything behind it. -/
theorem Covers.late (h : Covers len l a b) (hac : a ≤ c)
    (hl : ∀ x ∈ l, x ∈ l' ∨ stop len x ≤ c) : Covers len l' c b := by
  intro k hc hb
  obtain ⟨x, hx, hk⟩ := h k (Nat.le_trans hac hc) hb
  rcases hl x hx with hx' | hstop
  · exact ⟨x, hx', hk⟩
  · exact absurd (Nat.lt_of_lt_of_le hk.2 hstop) (Nat.not_lt.mpr hc)

/-- Pieces in order that lie apart end in order, too. -/
theorem stop_le_of_early (hy : 0 < len y.2) (hearly : Early x y)
    (hapart : Apart len x y) : stop len x ≤ y.1 := by
  rcases hapart with h | h
  · exact h
  · rw [Early] at hearly
    rw [stop] at h
    omega

/-- Without those at the front that end before `c`, all end behind it. -/
theorem lt_stop_of_dropWhile (hpos : ∀ x ∈ l, 0 < len x.2)
    (hsorted : l.Pairwise Early) (hapart : l.Pairwise (Apart len))
    (hx : x ∈ l.dropWhile fun y => stop len y ≤ c) : c < stop len x := by
  induction l with
  | nil => cases hx
  | cons y l ih =>
    obtain ⟨hearly, hsorted⟩ := List.pairwise_cons.mp hsorted
    obtain ⟨hfirst, hapart⟩ := List.pairwise_cons.mp hapart
    obtain ⟨hy, hpos⟩ := List.forall_mem_cons.mp hpos
    rw [List.dropWhile_cons] at hx
    split at hx
    · exact ih hpos hsorted hapart hx
    · next hlate =>
      have hc : c < stop len y := by simpa using hlate
      rcases List.mem_cons.mp hx with rfl | hx
      · exact hc
      · have hnext := stop_le_of_early (hpos x hx) (hearly x hx) (hfirst x hx)
        exact Nat.lt_of_lt_of_le hc
          (Nat.le_trans hnext (Nat.le_add_right _ _))

/-! ### What a sender holds -/

section Held

variable {β : Type*}

/-- Of `stream`, all but the first `a` elements are held in pieces of at most
`m` elements, those of `U` in flight and those of `N` waiting. -/
structure Held (stream : List β) (a m : Nat) (U N : List (Nat × List β)) :
    Prop where
  le : a ≤ stream.length
  nonempty : ∀ x ∈ U ++ N, x.2 ≠ []
  sits : ∀ x ∈ U ++ N, x.2 <+: stream.drop x.1
  late : ∀ x ∈ U ++ N, a < stop List.length x
  short : ∀ x ∈ U ++ N, x.2.length ≤ m
  sortedU : U.Pairwise Early
  sortedN : N.Pairwise Early
  apart : (U ++ N).Pairwise (Apart List.length)
  covers : Covers List.length (U ++ N) a stream.length

variable {stream new : List β} {a a' m m' n : Nat} {d : List β}
variable {U U' N N' : List (Nat × List β)} {x y : Nat × List β}

theorem held_nil (m : Nat) : Held ([] : List β) 0 m [] [] :=
  ⟨Nat.le_refl 0, nofun, nofun, nofun, nofun, List.Pairwise.nil,
    List.Pairwise.nil, List.Pairwise.nil,
    fun k _ hk => absurd hk (Nat.not_lt_zero k)⟩

theorem Held.pos (h : Held stream a m U N) (hx : x ∈ U ++ N) :
    0 < x.2.length := List.length_pos_of_ne_nil (h.nonempty x hx)

theorem Held.stop_le (h : Held stream a m U N) (hx : x ∈ U ++ N) :
    stop List.length x ≤ stream.length := by
  have hpos := h.pos hx
  have hlen := (h.sits x hx).length_le
  rw [List.length_drop] at hlen
  rw [stop]
  omega

/-- Pieces go from one list to the other. -/
theorem Held.perm (h : Held stream a m U N)
    (hperm : (U' ++ N').Perm (U ++ N)) (hU : U'.Pairwise Early)
    (hN : N'.Pairwise Early) : Held stream a m U' N' where
  le := h.le
  nonempty x hx := h.nonempty x (hperm.mem_iff.mp hx)
  sits x hx := h.sits x (hperm.mem_iff.mp hx)
  late x hx := h.late x (hperm.mem_iff.mp hx)
  short x hx := h.short x (hperm.mem_iff.mp hx)
  sortedU := hU
  sortedN := hN
  apart := pairwise_apart_perm hperm.symm h.apart
  covers := h.covers.subset hperm.symm.subset

theorem Held.mono (h : Held stream a m U N) (hm : m ≤ m') :
    Held stream a m' U N :=
  { h with short := fun x hx => Nat.le_trans (h.short x hx) hm }

/-- More has arrived. -/
theorem Held.arrived (h : Held stream a m U N) (ha : a ≤ a')
    (hle : a' ≤ stream.length) :
    Held stream a' m (U.dropWhile fun x => stop List.length x ≤ a')
      (N.dropWhile fun x => stop List.length x ≤ a') := by
  have hsubU := List.dropWhile_sublist
    (fun x : Nat × List β => decide (stop List.length x ≤ a')) (l := U)
  have hsubN := List.dropWhile_sublist
    (fun x : Nat × List β => decide (stop List.length x ≤ a')) (l := N)
  have hsub := hsubU.append hsubN
  obtain ⟨hapartU, hapartN, -⟩ := List.pairwise_append.mp h.apart
  refine ⟨hle, fun x hx => h.nonempty x (hsub.subset hx),
    fun x hx => h.sits x (hsub.subset hx), fun x hx => ?_,
    fun x hx => h.short x (hsub.subset hx), h.sortedU.sublist hsubU,
    h.sortedN.sublist hsubN, h.apart.sublist hsub,
    h.covers.late ha fun x hx => ?_⟩
  · rcases List.mem_append.mp hx with hx | hx
    · exact lt_stop_of_dropWhile
        (fun y hy => h.pos (List.mem_append_left N hy)) h.sortedU hapartU hx
    · exact lt_stop_of_dropWhile
        (fun y hy => h.pos (List.mem_append_right U hy)) h.sortedN hapartN hx
  · rcases Nat.lt_or_ge a' (stop List.length x) with hlate | hearly
    · refine Or.inl ?_
      have hkeep (l : List (Nat × List β)) (hxl : x ∈ l) :
          x ∈ l.dropWhile fun y => stop List.length y ≤ a' := by
        rw [← List.takeWhile_append_dropWhile (l := l)
          (p := fun y => stop List.length y ≤ a'), List.mem_append] at hxl
        rcases hxl with hxl | hxl
        · have hxa := List.mem_takeWhile_imp hxl
          simp only [decide_eq_true_eq] at hxa
          omega
        · exact hxl
      rcases List.mem_append.mp hx with hx | hx
      · exact List.mem_append_left _ (hkeep U hx)
      · exact List.mem_append_right _ (hkeep N hx)
    · exact Or.inr hearly

theorem prefix_append_drop (h : d <+: stream.drop n) :
    d <+: (stream ++ new).drop n := by
  rw [List.drop_append]
  exact h.trans (List.prefix_append _ _)

/-- **The last piece is extended.** -/
theorem Held.extend (h : Held stream a m U (N ++ [(n, d)]))
    (hstop : n + d.length = stream.length)
    (hm : d.length + new.length ≤ m) :
    Held (stream ++ new) a m U (N ++ [(n, d ++ new)]) := by
  have hlast : (n, d) ∈ U ++ (N ++ [(n, d)]) := by simp
  have hrest {x : Nat × List β} (hx : x ∈ U ++ N) :
      x ∈ U ++ (N ++ [(n, d)]) := by
    rw [← List.append_assoc]
    exact List.mem_append_left _ hx
  -- every other piece lies in front of it
  have hbefore {x : Nat × List β} (hx : x ∈ U ++ N) :
      stop List.length x ≤ n := by
    have hapart := h.apart
    rw [← List.append_assoc] at hapart
    rcases (List.pairwise_append.mp hapart).2.2 x hx (n, d)
      (List.mem_singleton.mpr rfl) with hle | hge
    · exact hle
    · have hxstop := h.stop_le (hrest hx)
      have hxpos := h.pos (hrest hx)
      rw [stop] at hge hxstop
      dsimp only at hge
      omega
  have hd : d = stream.drop n := by
    refine (h.sits _ hlast).eq_of_length ?_
    rw [List.length_drop]
    dsimp only
    omega
  have hcases {x : Nat × List β} (hx : x ∈ U ++ (N ++ [(n, d ++ new)])) :
      x ∈ U ++ N ∨ x = (n, d ++ new) := by
    rw [← List.append_assoc, List.mem_append, List.mem_singleton] at hx
    exact hx
  refine ⟨?_, fun x hx => ?_, fun x hx => ?_, fun x hx => ?_, fun x hx => ?_,
    h.sortedU, ?_, ?_, fun k hak hk => ?_⟩
  · have := h.le
    rw [List.length_append]
    omega
  · rcases hcases hx with hx | rfl
    · exact h.nonempty x (hrest hx)
    · exact List.append_ne_nil_of_left_ne_nil (h.nonempty _ hlast) new
  · rcases hcases hx with hx | rfl
    · exact prefix_append_drop (h.sits x (hrest hx))
    · have hnew : (stream ++ new).drop n = d ++ new := by
        rw [hd, List.drop_append_of_le_length (by omega)]
      exact ⟨[], by rw [hnew, List.append_nil]⟩
  · rcases hcases hx with hx | rfl
    · exact h.late x (hrest hx)
    · have hlate := h.late _ hlast
      rw [stop] at hlate ⊢
      dsimp only at hlate ⊢
      rw [List.length_append]
      omega
  · rcases hcases hx with hx | rfl
    · exact h.short x (hrest hx)
    · rwa [List.length_append]
  · obtain ⟨hN, -, hlastN⟩ := List.pairwise_append.mp h.sortedN
    refine List.pairwise_append.mpr ⟨hN, List.pairwise_singleton _ _,
      fun x hx y hy => ?_⟩
    rw [List.mem_singleton.mp hy]
    exact hlastN x hx (n, d) (List.mem_singleton.mpr rfl)
  · have hapart := h.apart
    rw [← List.append_assoc] at hapart ⊢
    refine List.pairwise_append.mpr ⟨(List.pairwise_append.mp hapart).1,
      List.pairwise_singleton _ _, fun x hx y hy => ?_⟩
    rw [List.mem_singleton.mp hy]
    exact Or.inl (hbefore hx)
  · rcases Nat.lt_or_ge k n with hkn | hkn
    · obtain ⟨x, hx, hxk⟩ := h.covers k hak (by omega)
      rw [← List.append_assoc, List.mem_append, List.mem_singleton] at hx
      rcases hx with hx | rfl
      · refine ⟨x, ?_, hxk⟩
        rw [← List.append_assoc]
        exact List.mem_append_left _ hx
      · exact absurd hxk.1 (Nat.not_le.mpr hkn)
    · refine ⟨(n, d ++ new), by simp, hkn, ?_⟩
      rw [List.length_append] at hk
      rw [stop, List.length_append]
      dsimp only
      omega

/-- **Another piece is appended.** -/
theorem Held.append (h : Held stream a m U N) (hnew : new ≠ [])
    (hm : new.length ≤ m) :
    Held (stream ++ new) a m U (N ++ [(stream.length, new)]) := by
  have hpos := List.length_pos_of_ne_nil hnew
  have hle := h.le
  have hcases {x : Nat × List β}
      (hx : x ∈ U ++ (N ++ [(stream.length, new)])) :
      x ∈ U ++ N ∨ x = (stream.length, new) := by
    rw [← List.append_assoc, List.mem_append, List.mem_singleton] at hx
    exact hx
  refine ⟨?_, fun x hx => ?_, fun x hx => ?_, fun x hx => ?_, fun x hx => ?_,
    h.sortedU, ?_, ?_, ?_⟩
  · rw [List.length_append]
    omega
  · rcases hcases hx with hx | rfl
    · exact h.nonempty x hx
    · exact hnew
  · rcases hcases hx with hx | rfl
    · exact prefix_append_drop (h.sits x hx)
    · exact ⟨[], by rw [List.drop_left, List.append_nil]⟩
  · rcases hcases hx with hx | rfl
    · exact h.late x hx
    · rw [stop]
      dsimp only
      omega
  · rcases hcases hx with hx | rfl
    · exact h.short x hx
    · exact hm
  · refine List.pairwise_append.mpr ⟨h.sortedN, List.pairwise_singleton _ _,
      fun x hx y hy => ?_⟩
    have hstop := h.stop_le (List.mem_append_right U hx)
    rw [List.mem_singleton.mp hy]
    rw [stop] at hstop
    exact Nat.le_of_add_right_le hstop
  · rw [← List.append_assoc]
    refine List.pairwise_append.mpr ⟨h.apart, List.pairwise_singleton _ _,
      fun x hx y hy => ?_⟩
    rw [List.mem_singleton.mp hy]
    exact Or.inl (h.stop_le hx)
  · rw [← List.append_assoc, List.length_append]
    refine h.covers.append fun k hk hk' =>
      ⟨(stream.length, new), List.mem_singleton.mpr rfl, hk, hk'⟩

/-- When everything has arrived, nothing is held. -/
theorem Held.eq_nil (h : Held stream stream.length m U N) :
    U = [] ∧ N = [] := by
  rw [← List.append_eq_nil_iff]
  refine List.eq_nil_iff_forall_not_mem.mpr fun x hx => ?_
  have hlate := h.late x hx
  have hle := h.stop_le hx
  omega

end Held

end Pieces

end Roip
