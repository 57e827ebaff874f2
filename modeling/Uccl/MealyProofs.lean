import Mathlib.Data.List.Basic

/-! # Machines that answer

    A machine takes an action and gives an answer; `run` collects the answers of a list of actions. One machine does the
    same as another along a run when a relation between their states is kept by every step and the answers agree
    (`run_simulates`). The steps may have to meet a side condition on the state of the second machine (`Along`). -/

namespace Mealy

variable {S S' A R : Type}

/-- The state after the actions, and the answers. -/
def run (step : S → A → S × R) : S → List A → S × List R
  | s, [] => (s, [])
  | s, a :: as => ((run step (step s a).1 as).1, (step s a).2 :: (run step (step s a).1 as).2)

/-- Every step of the run meets `G` in the state it is taken from. -/
def Along (step : S → A → S × R) (G : S → A → Prop) : S → List A → Prop
  | _, [] => True
  | s, a :: as => G s a ∧ Along step G (step s a).1 as

variable {step : S → A → S × R} {step' : S' → A → S' × R} {G : S' → A → Prop}

theorem run_append (s : S) (as bs : List A) : run step s (as ++ bs) = ((run step (run step s as).1 bs).1,
      (run step s as).2 ++ (run step (run step s as).1 bs).2) := by
  induction as generalizing s with
  | nil => rfl
  | cons a as ih =>
    show ((run step (step s a).1 (as ++ bs)).1, (step s a).2 :: (run step (step s a).1 (as ++ bs)).2) = _
    rw [ih]
    rfl

theorem along_append (s : S') (as bs : List A) :
    Along step' G s (as ++ bs) ↔ Along step' G s as ∧ Along step' G (run step' s as).1 bs := by
  induction as generalizing s with
  | nil => exact (Iff.of_eq (true_and _)).symm
  | cons a as ih =>
    show G s a ∧ Along step' G (step' s a).1 (as ++ bs) ↔ (G s a ∧ Along step' G (step' s a).1 as) ∧ _
    rw [ih, and_assoc]
    rfl

/-- A quantity that no step lowers is not lower at the end. -/
theorem le_run {f : S' → ℕ} (hmono : ∀ s a, f s ≤ f (step' s a).1) (s : S') (as : List A) :
    f s ≤ f (run step' s as).1 := by
  induction as generalizing s with
  | nil => exact Nat.le_refl _
  | cons a as ih => exact Nat.le_trans (hmono s a) (ih (step' s a).1)

/-- What every step keeps, the run keeps, and the answers are the same. -/
theorem run_simulates {Rel : S → S' → Prop}
    (hstep : ∀ s t a, Rel s t → G t a → Rel (step s a).1 (step' t a).1 ∧ (step s a).2 = (step' t a).2)
    {s : S} {t : S'} {as : List A} (hrel : Rel s t) (hG : Along step' G t as) :
    Rel (run step s as).1 (run step' t as).1 ∧ (run step s as).2 = (run step' t as).2 := by
  induction as generalizing s t with
  | nil => exact ⟨hrel, rfl⟩
  | cons a as ih =>
    obtain ⟨hga, hrest⟩ := hG
    obtain ⟨hrel', hans⟩ := hstep s t a hrel hga
    obtain ⟨hend, hanswers⟩ := ih hrel' hrest
    exact ⟨hend, congrArg₂ List.cons hans hanswers⟩

end Mealy
