import Mathlib.Data.List.Infix

namespace Machine

variable {σ α : Type} {step : σ → α → σ} {allowed : σ → α → Prop} {s : σ} {actions : List α} {I P : σ → Prop}

def Along (step : σ → α → σ) (allowed : σ → α → Prop) : σ → List α → Prop
  | _, [] => True
  | s, a :: actions => allowed s a ∧ Along step allowed (step s a) actions

instance Along.decidable [∀ s a, Decidable (allowed s a)] :
    (s : σ) → (actions : List α) → Decidable (Along step allowed s actions)
  | _, [] => inferInstanceAs (Decidable True)
  | s, a :: actions =>
    have := Along.decidable (step s a) actions
    inferInstanceAs (Decidable (allowed s a ∧ Along step allowed (step s a) actions))

theorem Along.invariant (hstep : ∀ s a, allowed s a → I s → I (step s a)) (h : Along step allowed s actions)
    (hs : I s) : I (actions.foldl step s) := by
  induction actions generalizing s with
  | nil => exact hs
  | cons a actions ih => exact ih h.2 (hstep s a h.1 hs)

theorem along_congr {allowed' : σ → α → Prop} (hstep : ∀ s a, allowed s a → I s → I (step s a))
    (hiff : ∀ s a, I s → (allowed' s a ↔ allowed s a)) (hs : I s) :
    Along step allowed' s actions ↔ Along step allowed s actions := by
  induction actions generalizing s with
  | nil => exact Iff.rfl
  | cons a actions ih =>
    exact (and_congr_left' (hiff s a hs)).trans (and_congr_right fun ha => ih (hstep s a ha hs))

theorem along_append {before after : List α} : Along step allowed s (before ++ after) ↔
    Along step allowed s before ∧ Along step allowed (before.foldl step s) after := by
  induction before generalizing s with
  | nil => exact (and_iff_right trivial).symm
  | cons a before ih => exact (and_congr_right fun _ => ih).trans and_assoc.symm

def Sometime (step : σ → α → σ) (s : σ) (actions : List α) (P : σ → Prop) : Prop :=
  ∃ early, early <+: actions ∧ P (early.foldl step s)

theorem Sometime.now (h : P (actions.foldl step s)) : Sometime step s actions P :=
  ⟨actions, List.prefix_refl _, h⟩

theorem Sometime.mono {actions' : List α} {Q : σ → Prop} (h : Sometime step s actions P)
    (hext : actions <+: actions') (hweaker : ∀ t, P t → Q t) : Sometime step s actions' Q := by
  obtain ⟨early, hearly, ht⟩ := h
  exact ⟨early, hearly.trans hext, hweaker _ ht⟩

end Machine
