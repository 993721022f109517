/-
Roip/Lib/Lines.lean

Text made of terminated lines, and a buffer that collects chunks of it.

`unlines t ls` closes every line with the terminator `t`.  A text that ends in
the terminator is such a sequence of lines, and the lines are unique.

`lineBuffer t` collects chunks until the collected text ends in the
terminator, and then passes it on as one block.  However the text of some
lines is cut into chunks, every block consists of whole lines, and the blocks
together are the lines (`run_lineBuffer_unlines`).
-/
import Mathlib.Data.List.Basic
import Roip.Lib.Run

namespace Roip

universe u

variable {α : Type u}

/-! ### Lines -/

/-- The lines `ls`, each closed by `t`. -/
def unlines (t : α) (ls : List (List α)) : List α := ls.flatMap (· ++ [t])

@[simp] theorem unlines_nil (t : α) : unlines t [] = [] := rfl

@[simp] theorem unlines_cons (t : α) (l : List α) (ls : List (List α)) :
    unlines t (l :: ls) = l ++ t :: unlines t ls := by
  simp [unlines]

@[simp] theorem unlines_append (t : α) (ls ms : List (List α)) :
    unlines t (ls ++ ms) = unlines t ls ++ unlines t ms := by
  simp [unlines]

/-- Lines end in the terminator. -/
theorem getLast?_append_unlines (t : α) (xs : List α) {ls : List (List α)}
    (h : ls ≠ []) : (xs ++ unlines t ls).getLast? = some t := by
  obtain ⟨ls, l, rfl⟩ := (List.eq_nil_or_concat' ls).resolve_left h
  rw [unlines_append, unlines_cons, unlines_nil, ← List.append_assoc,
    ← List.append_assoc, List.getLast?_concat]

/-- A text is a sequence of lines and an unfinished one. -/
theorem exists_lines [DecidableEq α] (t : α) (xs : List α) :
    ∃ ls p, xs = unlines t ls ++ p ∧ (∀ l ∈ ls, t ∉ l) ∧ t ∉ p := by
  induction xs with
  | nil => exact ⟨[], [], rfl, by simp, by simp⟩
  | cons x xs ih =>
    obtain ⟨ls, p, rfl, hls, hp⟩ := ih
    by_cases hx : x = t
    · exact ⟨[] :: ls, p, by simp [hx], by simpa using hls, hp⟩
    · rcases ls with - | ⟨l, ls⟩
      · exact ⟨[], x :: p, rfl, by simp, by simp [hp, Ne.symm hx]⟩
      · refine ⟨(x :: l) :: ls, p, by simp, ?_, hp⟩
        rw [List.forall_mem_cons] at hls ⊢
        exact ⟨by simp [hls.1, Ne.symm hx], hls.2⟩

/-- A text that ends in the terminator is a sequence of lines. -/
theorem exists_lines_of_getLast? [DecidableEq α] {t : α} {xs : List α}
    (h : xs.getLast? = some t) :
    ∃ ls, xs = unlines t ls ∧ ∀ l ∈ ls, t ∉ l := by
  obtain ⟨ls, p, rfl, hls, hp⟩ := exists_lines t xs
  rcases List.eq_nil_or_concat' p with rfl | ⟨p, b, rfl⟩
  · exact ⟨ls, List.append_nil _, hls⟩
  · rw [← List.append_assoc, List.getLast?_concat] at h
    obtain rfl := Option.some.inj h
    simp at hp

/-- The first terminator of a text ends its first line. -/
theorem closed_line_inj {t : α} {l m x y : List α} (hl : t ∉ l) (hm : t ∉ m)
    (h : l ++ t :: x = m ++ t :: y) : l = m ∧ x = y := by
  induction l generalizing m with
  | nil =>
    rcases m with - | ⟨b, m⟩
    · simpa using h
    · simp only [List.nil_append, List.cons_append, List.cons.injEq] at h
      simp [h.1] at hm
  | cons a l ih =>
    rcases m with - | ⟨b, m⟩
    · simp only [List.nil_append, List.cons_append, List.cons.injEq] at h
      simp [h.1] at hl
    · simp only [List.mem_cons, not_or] at hl hm
      simp only [List.cons_append, List.cons.injEq] at h ⊢
      obtain ⟨rfl, hxy⟩ := ih hl.2 hm.2 h.2
      exact ⟨⟨h.1, rfl⟩, hxy⟩

/-- **The lines of a text are unique**: lines in front of it are its first
lines. -/
theorem unlines_eq_append {t : α} {ls ms : List (List α)} {y : List α}
    (hls : ∀ l ∈ ls, t ∉ l) (hms : ∀ l ∈ ms, t ∉ l)
    (h : unlines t ls = unlines t ms ++ y) :
    ∃ ks, ls = ms ++ ks ∧ y = unlines t ks := by
  induction ms generalizing ls with
  | nil => exact ⟨ls, rfl, h.symm⟩
  | cons m ms ih =>
    rcases ls with - | ⟨l, ls⟩
    · simp at h
    · rw [List.forall_mem_cons] at hls hms
      rw [unlines_cons, unlines_cons, List.append_assoc,
        List.cons_append] at h
      obtain ⟨rfl, h'⟩ := closed_line_inj hls.1 hms.1 h
      obtain ⟨ks, rfl, rfl⟩ := ih hls.2 hms.2 h'
      exact ⟨ks, rfl, rfl⟩

/-- The beginning of a closed line ends in the terminator exactly when it is
the whole line. -/
theorem getLast?_line_iff [DecidableEq α] {t : α} {l p q : List α}
    (hl : t ∉ l) (hp : p ≠ []) (h : p ++ q = l ++ [t]) :
    p.getLast? = some t ↔ q = [] := by
  constructor
  · intro hlast
    obtain ⟨ms, rfl, hms⟩ := exists_lines_of_getLast? hlast
    obtain ⟨ks, hks, rfl⟩ := unlines_eq_append (y := q)
      (List.forall_mem_singleton.mpr hl) hms (by simpa using h.symm)
    rcases ms with - | ⟨m, ms⟩
    · exact absurd rfl hp
    · have hnil : ks = [] := by
        have := congrArg List.length hks
        simp only [List.length_cons, List.length_nil, List.cons_append,
          List.length_append] at this
        exact List.length_eq_zero_iff.mp (by omega)
      rw [hnil, unlines_nil]
  · rintro rfl
    rw [List.append_nil] at h
    rw [h, List.getLast?_concat]

/-! ### Collecting chunks -/

section LineBuffer

variable [DecidableEq α]

/-- Collect a chunk; pass the collected text on when it ends in `t`. -/
def lineBuffer (t : α) (p c : List α) : Traced (List α) (List α) :=
  if (p ++ c).getLast? = some t then ⟨[p ++ c], some []⟩ else ⟨[], some (p ++ c)⟩

/-- The blocks of a run and what is left over are the text; every block ends
in the terminator, and what is left over does not. -/
theorem run_lineBuffer (t : α) (p : List α) (cs : List (List α))
    (hp : p.getLast? ≠ some t) :
    ∃ bs q, run (lineBuffer t) p cs = ⟨bs, some q⟩ ∧
      bs.flatten ++ q = p ++ cs.flatten ∧
      (∀ b ∈ bs, b.getLast? = some t) ∧ q.getLast? ≠ some t := by
  induction cs generalizing p with
  | nil => exact ⟨[], p, rfl, by simp, by simp, hp⟩
  | cons c cs ih =>
    by_cases hc : (p ++ c).getLast? = some t
    · obtain ⟨bs, q, hrun, hcat, hbs, hq⟩ := ih [] (by simp)
      refine ⟨(p ++ c) :: bs, q, ?_, by simp [hcat], by simpa [hc] using hbs,
        hq⟩
      rw [run_cons, lineBuffer, if_pos hc, Traced.mk_bind, hrun]
      rfl
    · obtain ⟨bs, q, hrun, hcat, hbs, hq⟩ := ih (p ++ c) hc
      refine ⟨bs, q, ?_, by simp [hcat], hbs, hq⟩
      rw [run_cons, lineBuffer, if_neg hc, Traced.mk_bind, hrun]
      rfl

/-- Consecutive blocks of a sequence of lines. -/
theorem exists_blocks {t : α} {bs : List (List α)} {ls : List (List α)}
    (hls : ∀ l ∈ ls, t ∉ l) (hbs : ∀ b ∈ bs, b.getLast? = some t)
    (h : bs.flatten = unlines t ls) :
    ∃ lss : List (List (List α)), lss.flatten = ls ∧
      bs = lss.map (unlines t) := by
  induction bs generalizing ls with
  | nil =>
    rcases ls with - | ⟨l, ls⟩
    · exact ⟨[], rfl, rfl⟩
    · simp at h
  | cons b bs ih =>
    rw [List.forall_mem_cons] at hbs
    obtain ⟨ms, rfl, hms⟩ := exists_lines_of_getLast? hbs.1
    obtain ⟨ks, rfl, hks⟩ := unlines_eq_append hls hms
      (y := bs.flatten) (by rw [← h, List.flatten_cons])
    obtain ⟨lss, rfl, rfl⟩ := ih
      (fun l hl => hls l (List.mem_append_right _ hl)) hbs.2 hks
    exact ⟨ms :: lss, rfl, rfl⟩

/-- **Chunks of lines leave as blocks of lines.** -/
theorem run_lineBuffer_unlines {t : α} {cs : List (List α)}
    {ls : List (List α)} (hls : ∀ l ∈ ls, t ∉ l)
    (h : cs.flatten = unlines t ls) :
    ∃ lss : List (List (List α)), lss.flatten = ls ∧
      run (lineBuffer t) [] cs = ⟨lss.map (unlines t), some []⟩ := by
  obtain ⟨bs, q, hrun, hcat, hbs, hq⟩ := run_lineBuffer t [] cs (by simp)
  rw [List.nil_append, h] at hcat
  obtain rfl : q = [] := by
    by_contra hne
    rcases ls with - | ⟨l, ls⟩
    · exact hne (List.append_eq_nil_iff.mp hcat).2
    · have hlast := getLast?_append_unlines t [] (List.cons_ne_nil l ls)
      rw [List.nil_append, ← hcat, List.getLast?_append_of_ne_nil _ hne]
        at hlast
      exact hq hlast
  rw [List.append_nil] at hcat
  obtain ⟨lss, hflat, rfl⟩ := exists_blocks hls hbs hcat
  exact ⟨lss, hflat, hrun⟩

end LineBuffer

end Roip
