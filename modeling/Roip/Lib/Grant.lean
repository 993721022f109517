/-
Roip/Lib/Grant.lean

A right that is granted and revoked while a machine runs.

`holds` says in which states the right is there, `grants` and `revokes` which
steps give it and take it away (`Granting`).  If the run starts without the
right, then whenever the right is there some step of the run has granted it
and no step since has revoked it (`grantedSince`).  If every use of the right
takes it away, it is used at most as often as it has been granted
(`count_run_le`).
-/
import Roip.Lib.Run

namespace Roip

section Grant

variable {σ ι ω : Type*} {step : σ → ι → Traced ω σ}
variable {holds : σ → Prop} {grants revokes : σ → ι → Prop}

/-- Only `grants` gives the right, and `revokes` takes it away. -/
structure Granting (step : σ → ι → Traced ω σ) (holds : σ → Prop)
    (grants revokes : σ → ι → Prop) : Prop where
  granted : ∀ {s x o t}, step s x = ⟨o, some t⟩ → holds t →
    grants s x ∨ holds s
  revoked : ∀ {s x o t}, step s x = ⟨o, some t⟩ → revokes s x → ¬ holds t

/-- The inputs `pre` of a run from `s` contain a granting step behind which no
step revokes. -/
def GrantedSince (step : σ → ι → Traced ω σ) (grants revokes : σ → ι → Prop)
    (s : σ) (pre : List ι) : Prop :=
  ∃ a y b o t, pre = a ++ y :: b ∧ run step s a = ⟨o, some t⟩ ∧ grants t y ∧
    ∀ b₁ z b₂ o' t', b = b₁ ++ z :: b₂ →
      run step s (a ++ y :: b₁) = ⟨o', some t'⟩ → ¬ revokes t' z

/-- **A right that is there has been granted and not revoked since.** -/
theorem grantedSince (hg : Granting step holds grants revokes) {s t : σ}
    {pre : List ι} {o : List ω} (h0 : ¬ holds s)
    (hr : run step s pre = ⟨o, some t⟩) (ht : holds t) :
    GrantedSince step grants revokes s pre := by
  -- the granting step stays where it is until a later step grants
  refine run_inv (I := fun pre _ t =>
    holds t → GrantedSince step grants revokes s pre)
    (fun h => absurd h h0) ?_ (List.append_nil pre).symm hr ht
  intro pre x _ o t o' t' _ hpre ih hx ht'
  rcases hg.granted hx ht' with hgr | hold
  · refine ⟨pre, x, [], o, t, rfl, hpre, hgr, ?_⟩
    intro b₁ z b₂ _ _ hb
    simp at hb
  · obtain ⟨a, y, b, oa, ta, rfl, ha, hgr, hsince⟩ := ih hold
    refine ⟨a, y, b ++ [x], oa, ta, by simp, ha, hgr, ?_⟩
    intro b₁ z b₂ o₁ t₁ hb hr₁
    rcases List.eq_nil_or_concat b₂ with rfl | ⟨b₂, w, rfl⟩
    · -- the last step: it has not revoked, for the right is still there
      obtain ⟨rfl, hzx⟩ := List.append_inj' hb rfl
      obtain rfl := List.singleton_inj.mp hzx
      rw [hpre] at hr₁
      cases hr₁
      exact fun hrev => hg.revoked hx hrev ht'
    · have hb' : b ++ [x] = (b₁ ++ z :: b₂) ++ [w] := by
        rw [hb, List.concat_eq_append, List.append_assoc, List.cons_append]
      obtain ⟨rfl, -⟩ := List.append_inj' hb' rfl
      exact hsince b₁ z b₂ o₁ t₁ rfl hr₁

/-- **A right that is used up.**  If in every step the uses, and the right
being there afterwards, are paid for by the grants and the right having been
there, then in every run the uses are paid for by the grants. -/
theorem count_run_le [DecidableEq ω] [DecidablePred holds] {use grant : ω}
    (hstep : ∀ s x, (step s x).out.count use +
        ((step s x).res.elim 0 fun t => if holds t then 1 else 0) ≤
      (step s x).out.count grant + if holds s then 1 else 0)
    (s : σ) (xs : List ι) :
    (run step s xs).out.count use ≤
      (run step s xs).out.count grant + if holds s then 1 else 0 := by
  induction xs generalizing s with
  | nil => exact Nat.zero_le _
  | cons x xs ih =>
    have h := hstep s x
    rw [run_cons, Traced.bind_out, List.count_append, List.count_append]
    rcases e : (step s x).res with - | t
    · rw [e] at h
      exact Nat.le_trans (Nat.le_add_right _ 0) h
    · have ht := ih t
      rw [e] at h
      simp only [Option.elim_some] at h ⊢
      omega

end Grant

end Roip
