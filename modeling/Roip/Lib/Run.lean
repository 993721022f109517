/-
Roip/Lib/Run.lean

Computations that perform observable actions and may become undefined, and
the runs of a machine whose steps are such computations.

`Traced ω α` is a computation that performs the actions `out : List ω` and
then either returns a value or is undefined (`res = none`).  The actions
performed before an undefined operation are kept: an observer has seen them.

A machine is a step function `step : σ → ι → Traced ω σ`.  `run step s xs`
feeds it the inputs `xs` one after the other; `Visits` and `Feeds` name the
states it comes to and the steps it takes.  `run_inv` is the invariant rule,
the only induction over runs: an invariant may speak about the inputs consumed
so far, the actions performed so far and the state reached, and the step
hypothesis knows the position of the step in the run.
-/
import Mathlib.Data.List.Induction
import Mathlib.Tactic.Common

namespace Roip

/-! ### Traced computations -/

/-- A computation that performs the actions `out` and returns `res`, or is
undefined after them. -/
structure Traced (ω : Type*) (α : Type*) where
  out : List ω
  res : Option α
deriving DecidableEq

namespace Traced

universe u v

variable {ω : Type u} {α β : Type v}

/-- Perform one action. -/
def emit (o : ω) : Traced ω PUnit := ⟨[o], some ⟨⟩⟩

/-- Undefined behaviour: nothing is promised from here on. -/
def undef : Traced ω α := ⟨[], none⟩

/-- A value that may be undefined, without any action. -/
def ofOption (x : Option α) : Traced ω α := ⟨[], x⟩

/-- A computation whose actions come after the actions `o`. -/
def after (o : List ω) : Traced ω α → Traced ω α
  | ⟨o', r⟩ => ⟨o ++ o', r⟩

@[simp] theorem after_out (o : List ω) (x : Traced ω α) :
    (x.after o).out = o ++ x.out := rfl

@[simp] theorem after_res (o : List ω) (x : Traced ω α) :
    (x.after o).res = x.res := rfl

instance : Monad (Traced ω) where
  pure a := ⟨[], some a⟩
  bind
    | ⟨o, none⟩, _ => ⟨o, none⟩
    | ⟨o, some a⟩, f => (f a).after o

@[ext] theorem ext {x y : Traced ω α} (ho : x.out = y.out)
    (hr : x.res = y.res) : x = y := by
  cases x; cases y; simp_all

@[simp] theorem pure_out (a : α) : (pure a : Traced ω α).out = [] := rfl

@[simp] theorem pure_res (a : α) : (pure a : Traced ω α).res = some a := rfl

@[simp] theorem bind_out (x : Traced ω α) (f : α → Traced ω β) :
    (x >>= f).out = x.out ++ x.res.elim [] fun a => (f a).out := by
  rcases x with ⟨o, - | a⟩
  · exact (List.append_nil o).symm
  · rfl

@[simp] theorem bind_res (x : Traced ω α) (f : α → Traced ω β) :
    (x >>= f).res = x.res.bind fun a => (f a).res := by
  rcases x with ⟨o, - | a⟩ <;> rfl

@[simp] theorem map_out (x : Traced ω α) (f : α → β) :
    (f <$> x).out = x.out := by
  rcases x with ⟨o, - | a⟩ <;> simp [Functor.map]

@[simp] theorem map_res (x : Traced ω α) (f : α → β) :
    (f <$> x).res = x.res.map f := by
  rcases x with ⟨o, - | a⟩ <;> simp [Functor.map]

@[simp] theorem emit_out (o : ω) : (emit o).out = [o] := rfl

@[simp] theorem emit_res (o : ω) : (emit o).res = some ⟨⟩ := rfl

@[simp] theorem undef_out : (undef : Traced ω α).out = [] := rfl

@[simp] theorem undef_res : (undef : Traced ω α).res = none := rfl

@[simp] theorem ofOption_out (x : Option α) :
    (ofOption x : Traced ω α).out = [] := rfl

@[simp] theorem ofOption_res (x : Option α) :
    (ofOption x : Traced ω α).res = x := rfl

@[simp] theorem ofOption_some (a : α) :
    (ofOption (some a) : Traced ω α) = pure a := rfl

@[simp] theorem ofOption_none :
    (ofOption none : Traced ω α) = undef := rfl

@[simp] theorem undef_bind (f : α → Traced ω β) :
    (undef >>= f) = undef := rfl

/-- A computation that returns. -/
theorem eq_mk_of_res {x : Traced ω α} {a : α} (h : x.res = some a) :
    x = ⟨x.out, some a⟩ := ext rfl h

/-- Sequencing after a computation that returns. -/
theorem mk_bind (o : List ω) (a : α) (f : α → Traced ω β) :
    ((⟨o, some a⟩ : Traced ω α) >>= f) = ⟨o ++ (f a).out, (f a).res⟩ := rfl

/-- A sequence returns exactly when both parts return. -/
theorem bind_eq_mk_iff {x : Traced ω α} {f : α → Traced ω β} {o : List ω}
    {b : β} :
    (x >>= f) = ⟨o, some b⟩ ↔
      ∃ a o', x.res = some a ∧ f a = ⟨o', some b⟩ ∧ o = x.out ++ o' := by
  obtain ⟨xo, xr⟩ := x
  rcases xr with - | a
  · constructor
    · intro h
      exact absurd (congrArg res h) (by simp)
    · rintro ⟨a, o', ha, -⟩
      cases ha
  · rw [mk_bind]
    constructor
    · intro h
      have hr : (f a).res = some b := congrArg res h
      exact ⟨a, (f a).out, rfl, eq_mk_of_res hr, (congrArg out h).symm⟩
    · rintro ⟨a', o', ha, hf, rfl⟩
      cases ha
      rw [hf]

theorem pure_eq_mk_iff {a b : α} {o : List ω} :
    (pure a : Traced ω α) = ⟨o, some b⟩ ↔ o = [] ∧ a = b := by
  constructor
  · intro h
    obtain ⟨rfl, hb⟩ := Traced.mk.inj h
    exact ⟨rfl, Option.some.inj hb⟩
  · rintro ⟨rfl, rfl⟩
    rfl

theorem map_eq_mk_iff {x : Traced ω α} {f : α → β} {o : List ω} {b : β} :
    (f <$> x) = ⟨o, some b⟩ ↔ ∃ a, x = ⟨o, some a⟩ ∧ f a = b := by
  rw [Traced.ext_iff, map_out, map_res, Option.map_eq_some_iff]
  constructor
  · rintro ⟨rfl, a, ha, hf⟩
    exact ⟨a, eq_mk_of_res ha, hf⟩
  · rintro ⟨a, rfl, hf⟩
    exact ⟨rfl, a, rfl, hf⟩

theorem ofOption_bind_eq_mk_iff {x : Option α} {f : α → Traced ω β}
    {o : List ω} {b : β} :
    (ofOption x >>= f) = ⟨o, some b⟩ ↔
      ∃ a, x = some a ∧ f a = ⟨o, some b⟩ := by
  rw [bind_eq_mk_iff]
  constructor
  · rintro ⟨a, o', hx, hf, rfl⟩
    exact ⟨a, hx, hf⟩
  · rintro ⟨a, hx, hf⟩
    exact ⟨a, o, hx, hf, rfl⟩

theorem emit_bind_eq_mk_iff {a : ω} {f : PUnit → Traced ω β} {o : List ω}
    {b : β} :
    (emit a >>= f) = ⟨o, some b⟩ ↔
      ∃ o', o = a :: o' ∧ f ⟨⟩ = ⟨o', some b⟩ := by
  rw [bind_eq_mk_iff]
  constructor
  · rintro ⟨_, o', -, hf, rfl⟩
    exact ⟨o', rfl, hf⟩
  · rintro ⟨o', rfl, hf⟩
    exact ⟨⟨⟩, o', rfl, hf, rfl⟩

instance : LawfulMonad (Traced ω) := LawfulMonad.mk' _
  (by rintro α ⟨o, - | a⟩ <;> refine ext ?_ ?_ <;> simp)
  (by intro α β a f; exact ext (by simp) (by simp))
  (by rintro α β γ ⟨o, - | a⟩ f g <;> exact ext (by simp) (by simp))

/-- The same computation seen through a map of the actions and a map of the
results. -/
def image {ω' : Type*} {β' : Type*} (g : ω → ω') (f : α → β')
    (x : Traced ω α) : Traced ω' β' := ⟨x.out.map g, x.res.map f⟩

/-- The image of a sequence. -/
theorem image_bind {ω' : Type*} {α' β' : Type v} {g : ω → ω'} {f : α → α'}
    {f' : β → β'} {x : Traced ω α} {k : α → Traced ω β}
    {k' : α' → Traced ω' β'} (h : ∀ a, k' (f a) = (k a).image g f') :
    x.image g f >>= k' = (x >>= k).image g f' := by
  rcases x with ⟨o, - | a⟩
  · rfl
  · refine ext ?_ ?_
    · show o.map g ++ (k' (f a)).out = (o ++ (k a).out).map g
      rw [h, List.map_append]
      rfl
    · show (k' (f a)).res = (k a).res.map f'
      rw [h]
      rfl

/-- Every action performed satisfies `P`. -/
def Only (P : ω → Prop) (x : Traced ω α) : Prop := ∀ o ∈ x.out, P o

theorem only_pure (P : ω → Prop) (a : α) : (pure a : Traced ω α).Only P := by
  simp [Only]

theorem only_ofOption (P : ω → Prop) (x : Option α) :
    (ofOption x : Traced ω α).Only P := by
  simp [Only]

theorem only_emit {P : ω → Prop} {o : ω} (h : P o) : (emit o).Only P := by
  simpa [Only] using h

theorem Only.bind {P : ω → Prop} {x : Traced ω α} {f : α → Traced ω β}
    (hx : x.Only P) (hf : ∀ a, (f a).Only P) : (x >>= f).Only P := by
  intro o ho
  rw [bind_out, List.mem_append] at ho
  rcases ho with ho | ho
  · exact hx o ho
  · rcases e : x.res with - | a
    · simp [e] at ho
    · rw [e] at ho
      exact hf a o ho

end Traced

/-! ### Runs -/

section Run

variable {σ ι ω : Type*} (step : σ → ι → Traced ω σ)

/-- Feed the inputs to the machine, one step each. -/
def run (s : σ) : List ι → Traced ω σ
  | [] => pure s
  | x :: xs => step s x >>= fun t => run t xs

@[simp] theorem run_nil (s : σ) : run step s [] = pure s := rfl

theorem run_cons (s : σ) (x : ι) (xs : List ι) :
    run step s (x :: xs) = step s x >>= fun t => run step t xs := rfl

theorem run_append (s : σ) (xs ys : List ι) :
    run step s (xs ++ ys) = run step s xs >>= fun t => run step t ys := by
  induction xs generalizing s with
  | nil => simp
  | cons x xs ih => simp only [List.cons_append, run_cons, ih, bind_assoc]

theorem run_concat (s : σ) (xs : List ι) (x : ι) :
    run step s (xs ++ [x]) = run step s xs >>= fun t => step t x := by
  simp [run_append, run_cons]

/-- A run of translated inputs. -/
theorem run_map {κ : Type*} (f : κ → ι) (s : σ) (xs : List κ) :
    run step s (xs.map f) = run (fun s x => step s (f x)) s xs := by
  induction xs generalizing s with
  | nil => rfl
  | cons x xs ih => simp only [List.map_cons, run_cons, ih]

variable {step}

/-- The last step of a run that returns. -/
theorem run_concat_eq_mk_iff {s u : σ} {xs : List ι} {x : ι} {o : List ω} :
    run step s (xs ++ [x]) = ⟨o, some u⟩ ↔
      ∃ t o₁ o₂, run step s xs = ⟨o₁, some t⟩ ∧ step t x = ⟨o₂, some u⟩ ∧
        o = o₁ ++ o₂ := by
  rw [run_concat, Traced.bind_eq_mk_iff]
  constructor
  · rintro ⟨t, o', hr, hs, rfl⟩
    exact ⟨t, _, o', Traced.eq_mk_of_res hr, hs, rfl⟩
  · rintro ⟨t, o₁, o₂, hr, hs, rfl⟩
    exact ⟨t, o₂, by rw [hr], hs, by rw [hr]⟩

/-! ### What a run visits -/

variable (step) in
/-- The run of `xs` from `s` is in the state `t` after the actions `o`. -/
def Visits (s : σ) (xs : List ι) (o : List ω) (t : σ) : Prop :=
  ∃ pre post, xs = pre ++ post ∧ run step s pre = ⟨o, some t⟩

variable (step) in
/-- The run of `xs` from `s` feeds the input `x` in the state `t` after the
actions `o`. -/
def Feeds (s : σ) (xs : List ι) (o : List ω) (t : σ) (x : ι) : Prop :=
  ∃ pre post, xs = pre ++ x :: post ∧ run step s pre = ⟨o, some t⟩

theorem Visits.start (s : σ) (xs : List ι) : Visits step s xs [] s :=
  ⟨[], xs, rfl, rfl⟩

theorem Visits.end {s t : σ} {xs : List ι} {o : List ω}
    (h : run step s xs = ⟨o, some t⟩) : Visits step s xs o t :=
  ⟨xs, [], (List.append_nil xs).symm, h⟩

theorem Feeds.visits {s t : σ} {xs : List ι} {o : List ω} {x : ι}
    (h : Feeds step s xs o t x) : Visits step s xs o t := by
  obtain ⟨pre, post, hxs, hr⟩ := h
  exact ⟨pre, x :: post, hxs, hr⟩

/-- The state after an input that has been fed. -/
theorem Feeds.next {s t u : σ} {xs : List ι} {x : ι} {o o' : List ω}
    (h : Feeds step s xs o t x) (hx : step t x = ⟨o', some u⟩) :
    Visits step s xs (o ++ o') u := by
  obtain ⟨pre, post, hxs, hr⟩ := h
  exact ⟨pre ++ [x], post, by simp [hxs],
    run_concat_eq_mk_iff.mpr ⟨t, o, o', hr, hx, rfl⟩⟩

/-- The actions of a step are actions of the run. -/
theorem Feeds.mem_out {s t : σ} {xs : List ι} {x : ι} {o : List ω} {a : ω}
    (h : Feeds step s xs o t x) (ha : a ∈ (step t x).out) :
    a ∈ (run step s xs).out := by
  obtain ⟨pre, post, rfl, hr⟩ := h
  rw [run_append, hr, Traced.mk_bind, run_cons]
  refine List.mem_append_right _ ?_
  rw [Traced.bind_out]
  exact List.mem_append_left _ ha

theorem feeds_nil {s t : σ} {o : List ω} {x : ι} :
    ¬ Feeds step s [] o t x := by
  rintro ⟨pre, post, h, -⟩
  simp at h

/-- What a run is fed: its first input in its first state, and then what the
rest of the run is fed. -/
theorem feeds_cons {s t : σ} {x y : ι} {xs : List ι} {o : List ω} :
    Feeds step s (x :: xs) o t y ↔ (o = [] ∧ t = s ∧ y = x) ∨
      ∃ o₁ o₂ u, step s x = ⟨o₁, some u⟩ ∧ Feeds step u xs o₂ t y ∧
        o = o₁ ++ o₂ := by
  constructor
  · rintro ⟨pre, post, h, hr⟩
    rcases pre with - | ⟨p, pre⟩
    · obtain ⟨rfl, rfl⟩ := List.cons.inj h
      obtain ⟨rfl, rfl⟩ := Traced.pure_eq_mk_iff.mp hr
      exact Or.inl ⟨rfl, rfl, rfl⟩
    · obtain ⟨rfl, rfl⟩ := List.cons.inj h
      rw [run_cons, Traced.bind_eq_mk_iff] at hr
      obtain ⟨u, o', hu, hr', rfl⟩ := hr
      exact Or.inr ⟨_, o', u, Traced.eq_mk_of_res hu, ⟨pre, post, rfl, hr'⟩,
        rfl⟩
  · rintro (⟨rfl, rfl, rfl⟩ | ⟨o₁, o₂, u, hx, ⟨pre, post, rfl, hr⟩, rfl⟩)
    · exact ⟨[], xs, rfl, rfl⟩
    · exact ⟨x :: pre, post, rfl, by rw [run_cons, hx, Traced.mk_bind, hr]⟩

/-- A run of one step. -/
@[simp] theorem feeds_singleton {s t : σ} {x y : ι} {o : List ω} :
    Feeds step s [x] o t y ↔ o = [] ∧ t = s ∧ y = x := by
  simp [feeds_cons, feeds_nil]

/-- A run that returns has been fed each of its inputs, and each of these
steps has returned. -/
theorem feeds_of_mem {s t : σ} {xs : List ι} {x : ι} {o : List ω}
    (hr : run step s xs = ⟨o, some t⟩) (hx : x ∈ xs) :
    ∃ o₁ u o₂ u', Feeds step s xs o₁ u x ∧ step u x = ⟨o₂, some u'⟩ := by
  -- the run is cut in front of the input
  obtain ⟨pre, post, rfl⟩ := List.append_of_mem hx
  rw [run_append, Traced.bind_eq_mk_iff] at hr
  obtain ⟨u, o', hu, hr', -⟩ := hr
  rw [run_cons, Traced.bind_eq_mk_iff] at hr'
  obtain ⟨u', o'', hu', -, -⟩ := hr'
  exact ⟨_, u, _, u', ⟨pre, post, rfl, Traced.eq_mk_of_res hu⟩,
    Traced.eq_mk_of_res hu'⟩

variable (step) in
/-- Whether every step of a run meets a condition. -/
def checkRun (C : σ → ι → Bool) (s : σ) : List ι → Bool
  | [] => true
  | x :: xs => C s x && (step s x).res.all fun t => checkRun C t xs

theorem checkRun_feeds {C : σ → ι → Bool} {s t : σ} {x : ι} {xs : List ι}
    {o : List ω} (h : checkRun step C s xs = true)
    (hf : Feeds step s xs o t x) : C t x = true := by
  induction xs generalizing s o with
  | nil => exact absurd hf feeds_nil
  | cons y ys ih =>
    rw [checkRun, Bool.and_eq_true] at h
    rcases feeds_cons.mp hf with ⟨-, rfl, rfl⟩ | ⟨o₁, o₂, u, hy, hf', -⟩
    · exact h.1
    · have hrest := h.2
      rw [hy, Option.all_some] at hrest
      exact ih hrest hf'

/-- **The invariant rule.**  `I pre o t` relates the inputs consumed so far,
the actions performed so far and the state reached.  If it holds at the start
and is kept by every step the run of `xs` takes, it holds at every point of
that run. -/
theorem run_inv {I : List ι → List ω → σ → Prop} {s : σ} {xs : List ι}
    (h0 : I [] [] s)
    (hstep : ∀ pre x post o t o' t', xs = pre ++ x :: post →
      run step s pre = ⟨o, some t⟩ → I pre o t → step t x = ⟨o', some t'⟩ →
      I (pre ++ [x]) (o ++ o') t')
    {pre post : List ι} {o : List ω} {t : σ} (hxs : xs = pre ++ post)
    (hr : run step s pre = ⟨o, some t⟩) : I pre o t := by
  -- the induction takes the last step off, so the position of a step is known
  induction pre using List.reverseRecOn generalizing post o t with
  | nil =>
    obtain ⟨rfl, rfl⟩ := Traced.pure_eq_mk_iff.mp hr
    exact h0
  | append_singleton pre x ih =>
    rw [List.append_assoc, List.singleton_append] at hxs
    obtain ⟨u, o₁, o₂, hpre, hx, rfl⟩ := run_concat_eq_mk_iff.mp hr
    exact hstep pre x post o₁ u o₂ t hxs hpre (ih hxs hpre) hx

/-- The invariant rule for what does not depend on the inputs. -/
theorem visits_inv {I : List ω → σ → Prop} {s : σ} {xs : List ι}
    (h0 : I [] s)
    (hstep : ∀ o t x o' t', Feeds step s xs o t x → I o t →
      step t x = ⟨o', some t'⟩ → I (o ++ o') t')
    {o : List ω} {t : σ} (h : Visits step s xs o t) : I o t := by
  obtain ⟨pre, post, hxs, hr⟩ := h
  exact run_inv (I := fun _ o t => I o t) h0
    (fun pre x post o t o' t' hxs hr => hstep o t x o' t' ⟨pre, post, hxs, hr⟩)
    hxs hr

/-- The invariant rule for total runs: if every step that is taken in a state
satisfying `I` returns and keeps `I`, the run returns. -/
theorem run_total {I : List ω → σ → Prop} {s : σ} {xs : List ι}
    (h0 : I [] s)
    (hstep : ∀ o t x, Feeds step s xs o t x → I o t →
      ∃ o' t', step t x = ⟨o', some t'⟩ ∧ I (o ++ o') t') :
    ∃ o t, run step s xs = ⟨o, some t⟩ ∧ I o t := by
  induction xs using List.reverseRecOn with
  | nil => exact ⟨[], s, rfl, h0⟩
  | append_singleton xs x ih =>
    obtain ⟨o, t, hr, hI⟩ := ih fun o t y hf => hstep o t y (by
      obtain ⟨pre, post, rfl, hr⟩ := hf
      exact ⟨pre, post ++ [x], by simp, hr⟩)
    obtain ⟨o', t', hx, hI'⟩ := hstep o t x ⟨xs, [], rfl, hr⟩ hI
    exact ⟨_, t', run_concat_eq_mk_iff.mpr ⟨t, o, o', hr, hx, rfl⟩, hI'⟩

/-- What a run performs, one of its steps performs. -/
theorem exists_feeds_of_mem_out {s : σ} {xs : List ι} {a : ω}
    (h : a ∈ (run step s xs).out) :
    ∃ o t x, Feeds step s xs o t x ∧ a ∈ (step t x).out := by
  induction xs using List.reverseRecOn with
  | nil => cases h
  | append_singleton xs x ih =>
    rw [run_concat, Traced.bind_out, List.mem_append] at h
    rcases h with h | h
    · obtain ⟨o, t, y, ⟨pre, post, rfl, hr⟩, ha⟩ := ih h
      exact ⟨o, t, y, ⟨pre, post ++ [x], by simp, hr⟩, ha⟩
    · rcases e : (run step s xs).res with - | t
      · rw [e] at h
        cases h
      · rw [e] at h
        exact ⟨_, t, x, ⟨xs, [], rfl, Traced.eq_mk_of_res e⟩, h⟩

/-- **Exact step conditions.**  If, from a state satisfying `I`, a step keeps
`I` exactly when it meets the condition `C`, then a run stays in `I` exactly
when each of its steps meets `C`. -/
theorem visits_inv_iff {I : List ω → σ → Prop} {C : σ → ι → Prop} {s : σ}
    {xs : List ι} (h0 : I [] s)
    (hiff : ∀ o t x o' t', I o t → step t x = ⟨o', some t'⟩ →
      (I (o ++ o') t' ↔ C t x)) :
    (∀ o t, Visits step s xs o t → I o t) ↔
      ∀ o t x o' t', Feeds step s xs o t x → step t x = ⟨o', some t'⟩ →
        C t x := by
  constructor
  · intro h o t x o' t' hf hx
    exact (hiff o t x o' t' (h o t hf.visits) hx).mp (h _ _ (hf.next hx))
  · intro h o t hv
    refine visits_inv h0 ?_ hv
    intro o t x o' t' hf hI hx
    exact (hiff o t x o' t' hI hx).mpr (h o t x o' t' hf hx)

/-- A map from one machine to another that respects the steps respects the
runs. -/
theorem run_image {σ' ω' : Type*} {step' : σ' → ι → Traced ω' σ'}
    {f : σ → σ'} {g : ω → ω'}
    (h : ∀ s x, step' (f s) x = (step s x).image g f) (s : σ)
    (xs : List ι) : run step' (f s) xs = (run step s xs).image g f := by
  induction xs generalizing s with
  | nil => rfl
  | cons x xs ih =>
    rw [run_cons, run_cons, h]
    rcases step s x with ⟨o, - | t⟩
    · rfl
    · rw [Traced.image, Option.map_some, Traced.mk_bind, Traced.mk_bind, ih]
      simp [Traced.image]

end Run

end Roip
