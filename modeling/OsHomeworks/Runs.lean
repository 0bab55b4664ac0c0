import Mathlib.Logic.Relation

/-! Finite runs of a labelled step relation: invariants, concatenation, and runs whose every step
meets a condition. -/

namespace OsHomeworks.Runs

variable {σ α : Type*}

/-- A finite run and the labels of its steps. -/
inductive Run (step : σ → α → σ → Prop) : σ → List α → σ → Prop where
  | nil (s : σ) : Run step s [] s
  | cons {s t u : σ} {a : α} {as : List α} :
      step s a t → Run step t as u → Run step s (a :: as) u

/-- The steps that meet a condition on the state before the step and the label. -/
def Guarded (ok : σ → α → Prop) (step : σ → α → σ → Prop) : σ → α → σ → Prop :=
  fun s a t => ok s a ∧ step s a t

variable {step : σ → α → σ → Prop}

theorem Run.single {s t : σ} {a : α} (h : step s a t) : Run step s [a] t := .cons h (.nil t)

theorem Run.append {s t u : σ} {as bs : List α} (h : Run step s as t) (h' : Run step t bs u) :
    Run step s (as ++ bs) u := by
  induction h with
  | nil s => exact h'
  | cons hstep _ ih => exact .cons hstep (ih h')

theorem Run.snoc {s t u : σ} {as : List α} {a : α} (h : Run step s as t) (h' : step t a u) :
    Run step s (as ++ [a]) u := h.append (.single h')

/-- The run of a step function on a list of labels. -/
theorem Run.of_foldlM {f : σ → α → Option σ} {s t : σ} {as : List α} (h : as.foldlM f s = some t) :
    Run (fun s a t => f s a = some t) s as t := by
  induction as generalizing s with
  | nil =>
      obtain rfl := Option.some.inj h
      exact .nil s
  | cons a as ih =>
      rw [List.foldlM_cons] at h
      obtain ⟨u, hu, hrest⟩ := Option.bind_eq_some_iff.mp h
      exact .cons hu (ih hrest)

/-- What every step preserves holds at the end of every run. -/
theorem Run.invariant {P : σ → Prop} (hstep : ∀ s a t, P s → step s a t → P t) {s t : σ}
    {as : List α} (h : Run step s as t) (hs : P s) : P t := by
  induction h with
  | nil s => exact hs
  | cons hst _ ih => exact ih (hstep _ _ _ hs hst)

theorem Run.mono {step' : σ → α → σ → Prop} (hsub : ∀ s a t, step s a t → step' s a t) {s t : σ}
    {as : List α} (h : Run step s as t) : Run step' s as t := by
  induction h with
  | nil s => exact .nil s
  | cons hst _ ih => exact .cons (hsub _ _ _ hst) ih

/-- Where at most one step is possible, one of two runs from the same state continues the other. -/
theorem Run.comparable (P : σ → Prop) (hinv : ∀ s a t, P s → step s a t → P t)
    (hdet : ∀ s a t b u, P s → step s a t → step s b u → a = b ∧ t = u) {s t u : σ}
    {as bs : List α} (h : Run step s as t) (h' : Run step s bs u) (hs : P s) :
    (∃ cs, Run step t cs u) ∨ ∃ cs, Run step u cs t := by
  induction h generalizing bs with
  | nil s => exact Or.inl ⟨bs, h'⟩
  | @cons s t₁ t a as hstep hrest ih =>
      cases h' with
      | nil => exact Or.inr ⟨a :: as, .cons hstep hrest⟩
      | cons hstep' hrest' =>
          obtain ⟨rfl, rfl⟩ := hdet _ _ _ _ _ hs hstep hstep'
          exact ih hrest' (hinv _ _ _ hs hstep)

end OsHomeworks.Runs
