import Mathlib.Tactic.Common

/-!
# Runs of a labelled transition relation

A run is a list of labels with the states before and after it. An invariant is kept by runs all of
whose steps meet a condition on the label and the state before the step (`Run.invariant`), which is
how a property is stated that some steps break.
-/

variable {S A : Type} {step : S → A → S → Prop}

/-- `Run step s as s'`: the steps labelled `as`, in order, lead from `s` to `s'`. -/
inductive Run (step : S → A → S → Prop) : S → List A → S → Prop where
  | nil (s : S) : Run step s [] s
  | cons {s s₁ s' : S} {a : A} {as : List A} : step s a s₁ → Run step s₁ as s' →
    Run step s (a :: as) s'

namespace Run

theorem snoc {s s₁ s' : S} {a : A} {as : List A} (h : Run step s as s₁) (hstep : step s₁ a s') :
    Run step s (as ++ [a]) s' := by
  induction h with
  | nil s => exact .cons hstep (.nil _)
  | cons hfirst _ ih => exact .cons hfirst (ih hstep)

theorem append {s s₁ s' : S} {as bs : List A} (h : Run step s as s₁) (h' : Run step s₁ bs s') :
    Run step s (as ++ bs) s' := by
  induction h with
  | nil s => exact h'
  | cons hfirst _ ih => exact .cons hfirst (ih h')

theorem split {s s' : S} {as bs : List A} (h : Run step s (as ++ bs) s') :
    ∃ s₁, Run step s as s₁ ∧ Run step s₁ bs s' := by
  induction as generalizing s with
  | nil => exact ⟨s, .nil s, h⟩
  | cons a as ih =>
    cases h with
    | cons hfirst hrest =>
      obtain ⟨s₁, has, hbs⟩ := ih hrest
      exact ⟨s₁, .cons hfirst has, hbs⟩

/-- A run all of whose steps meet a condition is a run of the guarded relation. -/
def Guarded (ok : S → A → Prop) (step : S → A → S → Prop) (s : S) (a : A) (s' : S) : Prop :=
  ok s a ∧ step s a s'

theorem invariant {ok : S → A → Prop} {inv : S → Prop}
    (hkeep : ∀ s a s', inv s → ok s a → step s a s' → inv s') {s s' : S} {as : List A}
    (hrun : Run (Guarded ok step) s as s') (hs : inv s) : inv s' := by
  induction hrun with
  | nil s => exact hs
  | cons hstep _ ih => exact ih (hkeep _ _ _ hs hstep.1 hstep.2)

theorem preserves {inv : S → Prop} (hkeep : ∀ s a s', inv s → step s a s' → inv s') {s s' : S}
    {as : List A} (hrun : Run step s as s') (hs : inv s) : inv s' := by
  induction hrun with
  | nil s => exact hs
  | cons hstep _ ih => exact ih (hkeep _ _ _ hs hstep)

theorem invariant_of_labels {excluded : A → Prop} {inv : S → Prop}
    (hkeep : ∀ s a s', inv s → ¬ excluded a → step s a s' → inv s') {s s' : S} {as : List A}
    (hrun : Run step s as s') (hs : inv s) (has : ∀ a ∈ as, ¬ excluded a) : inv s' := by
  induction hrun with
  | nil s => exact hs
  | cons hstep _ ih =>
    exact ih (hkeep _ _ _ hs (has _ (by simp)) hstep) fun a ha => has a (by simp [ha])

end Run
