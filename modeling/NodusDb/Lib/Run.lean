import Mathlib

/-!
# Runs of a labelled transition system

`Run step s as t`: the labels `as` lead from `s` to `t`. A run is extended at its end, so an
invariant is proved by one step case (`Run.invariant`). `Guarded` and `Along` restrict the steps,
`exec` evaluates concrete runs, and `Meets` is for a step function folded over a list.
-/

variable {σ α : Type}

/-- The labels lead from the first state to the second. -/
inductive Run (step : σ → α → σ → Prop) : σ → List α → σ → Prop
  | nil (s : σ) : Run step s [] s
  | snoc {s t u : σ} {as : List α} {a : α} :
      Run step s as t → step t a u → Run step s (as ++ [a]) u

/-- The steps of `step` taken where `ok` holds. -/
def Guarded (step : σ → α → σ → Prop) (ok : σ → α → Prop) : σ → α → σ → Prop :=
  fun s a t => ok s a ∧ step s a t

namespace Run

variable {as : List α} {s t : σ} {step : σ → α → σ → Prop}

theorem invariant {I : σ → Prop}
    (hr : Run step s as t) (h0 : I s) (hs : ∀ t a u, I t → step t a u → I u) : I t := by
  induction hr with
  | nil => exact h0
  | snoc _ ha ih => exact hs _ _ _ ih ha

theorem append (h₁ : Run step s as t) (h₂ : Run step t bs u) : Run step s (as ++ bs) u := by
  induction h₂ with
  | nil => simpa using h₁
  | snoc _ ha ih =>
    rw [← List.append_assoc]
    exact ih.snoc ha

theorem single (h : step s a t) : Run step s [a] t :=
  (Run.nil s).snoc h

theorem mono (hm : ∀ s a t, step s a t → step' s a t) (h : Run step s as t) : Run step' s as t := by
  induction h with
  | nil => exact .nil _
  | snoc _ ha ih => exact ih.snoc (hm _ _ _ ha)

end Run

/-- Run a partial step function over a list of labels. -/
def exec (f : σ → α → Option σ) : σ → List α → Option σ
  | s, [] => some s
  | s, a :: as => (f s a).bind fun t => exec f t as

variable {as : List α} {f : σ → α → Option σ} {s t : σ} {ok : σ → α → Prop}

theorem run_of_exec (h : exec f s as = some t) : Run (fun s a t => f s a = some t) s as t := by
  induction as generalizing s with
  | nil => cases h; exact .nil _
  | cons a as ih =>
    obtain ⟨u, hu, ht⟩ := Option.bind_eq_some_iff.mp h
    exact (Run.single hu).append (ih ht)

/-- Whether there is a next state is decided by computing it. -/
instance decidableSome {o : Option σ} : Decidable (∃ t, o = some t) :=
  decidable_of_iff _ Option.isSome_iff_exists

theorem exists_run {P : σ → Prop} (h : ∃ t, exec f s as = some t ∧ P t) :
    ∃ t, Run (fun s a t => f s a = some t) s as t ∧ P t := by
  obtain ⟨t, ht, hP⟩ := h
  exact ⟨t, run_of_exec ht, hP⟩

/-- Executing the steps that meet `ok`. -/
def execOk (f : σ → α → Option σ) (ok : σ → α → Prop) [∀ s a, Decidable (ok s a)] :
    σ → List α → Option σ :=
  exec fun s a => if ok s a then f s a else none

theorem run_of_execOk [∀ s a, Decidable (ok s a)] (h : execOk f ok s as = some t) :
    Run (Guarded (fun s a t => f s a = some t) ok) s as t := by
  refine (run_of_exec h).mono fun s a t hstep => ?_
  split at hstep
  next hok => exact ⟨hok, hstep⟩
  · cases hstep

theorem run_guarded_of_exec (h : exec f s as = some t)
    (hok : ∀ bs a cs u, as = bs ++ a :: cs → exec f s bs = some u → ok u a) :
    Run (Guarded (fun s a t => f s a = some t) ok) s as t := by
  induction as generalizing s with
  | nil => cases h; exact .nil _
  | cons a as ih =>
    obtain ⟨u, hu, ht⟩ := Option.bind_eq_some_iff.mp h
    refine (Run.single ⟨hok [] a as s rfl rfl, hu⟩).append (ih ht fun bs b cs v hbs hv => ?_)
    refine hok (a :: bs) b cs v (by rw [hbs]; rfl) ?_
    rw [exec, hu]
    exact hv

/-- Every step of the run over `as` from `s` has the property `P`. -/
def Along (step : σ → α → σ → Prop) (P : σ → α → Prop) (s : σ) (as : List α) : Prop :=
  ∀ bs a cs t u, as = bs ++ a :: cs → Run step s bs t → step t a u → P t a

/-! ## Step functions -/

/-- Every label meets `ok` in the state it is taken in. -/
def Meets (f : σ → α → σ) (ok : σ → α → Prop) : σ → List α → Prop
  | _, [] => True
  | s, a :: as => ok s a ∧ Meets f ok (f s a) as

instance (f : σ → α → σ) (ok : σ → α → Prop) [∀ s a, Decidable (ok s a)] :
    (s : σ) → (as : List α) → Decidable (Meets f ok s as)
  | _, [] => isTrue trivial
  | s, a :: as =>
    have := instDecidableMeets f ok (f s a) as
    inferInstanceAs (Decidable (ok s a ∧ Meets f ok (f s a) as))

theorem meets_append {f : σ → α → σ} {bs : List α} :
    Meets f ok s (as ++ bs) ↔ Meets f ok s as ∧ Meets f ok (as.foldl f s) bs := by
  induction as generalizing s with
  | nil => simp [Meets]
  | cons a as ih => simp [Meets, ih, and_assoc]

/-- A property kept by every step that meets `ok` holds after every list of such steps. -/
theorem foldl_invariant {f : σ → α → σ} {I : σ → Prop}
    (hs : ∀ s a, I s → ok s a → I (f s a)) (h0 : I s)
    (hm : Meets f ok s as) : I (as.foldl f s) := by
  induction as generalizing s with
  | nil => exact h0
  | cons a as ih => exact ih (hs s a h0 hm.1) hm.2
