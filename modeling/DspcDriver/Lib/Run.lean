import Mathlib.Data.List.Basic

/-!
# Runs with their actions

A run is the list of the actions of its steps, in order, between two states. `Run.inv` is the rule of
invariants that may speak of the actions so far, `Run.of_mem` cuts a run at one of its actions.
-/

namespace Lib

variable {α σ : Type} {step : σ → α → σ → Prop} {s t u : σ} {as bs : List α} {a : α}

/-- The actions `as` lead from one state to another. -/
inductive Run (step : σ → α → σ → Prop) (s : σ) : List α → σ → Prop
  | start : Run step s [] s
  | next {as : List α} {a : α} {t u : σ} : Run step s as t → step t a u → Run step s (as ++ [a]) u

namespace Run

/-- What holds before the first action and is kept by every step of the run holds after it. -/
@[elab_as_elim] theorem inv {I : List α → σ → Prop} (h : Run step s as t) (h0 : I [] s)
    (hstep : ∀ as t a u, Run step s as t → I as t → step t a u → I (as ++ [a]) u) : I as t := by
  induction h with
  | start => exact h0
  | next h hst ih => exact hstep _ _ _ _ h ih hst

theorem append (h : Run step s as t) (h' : Run step t bs u) : Run step s (as ++ bs) u := by
  induction h' with
  | start => rwa [List.append_nil]
  | next _ hst ih => rw [← List.append_assoc]; exact .next ih hst

/-- A run up to some of its actions, and the rest. -/
theorem split_append (h : Run step s (as ++ bs) u) : ∃ t, Run step s as t ∧ Run step t bs u := by
  generalize hl : as ++ bs = l at h
  induction h generalizing bs with
  | start =>
    obtain ⟨rfl, rfl⟩ := List.append_eq_nil_iff.mp hl
    exact ⟨s, .start, .start⟩
  | @next l a t u h hst ih =>
    rcases List.eq_nil_or_concat bs with rfl | ⟨bs, b, rfl⟩
    · rw [List.append_nil] at hl
      subst hl
      exact ⟨u, .next h hst, .start⟩
    · rw [List.concat_eq_append, ← List.append_assoc] at hl
      obtain ⟨hl', hb⟩ := List.append_inj' hl rfl
      cases hb
      obtain ⟨v, h₁, h₂⟩ := ih hl'
      rw [List.concat_eq_append]
      exact ⟨v, h₁, .next h₂ hst⟩

/-- A run cut at one of its actions. -/
theorem split (h : Run step s (as ++ a :: bs) u) :
    ∃ t t', Run step s as t ∧ step t a t' ∧ Run step t' bs u := by
  rw [← List.singleton_append, ← List.append_assoc] at h
  obtain ⟨t', h₁, h₂⟩ := split_append h
  generalize hl : as ++ [a] = l at h₁
  cases h₁ with
  | start => exact absurd hl (by simp)
  | next h hst =>
    obtain ⟨rfl, hb⟩ := List.append_inj' hl rfl
    cases hb
    exact ⟨_, _, h, hst, h₂⟩

/-- The run up to an action, the step of it, and the rest. -/
theorem of_mem (h : Run step s as u) (ha : a ∈ as) : ∃ as₁ as₂ t t', as = as₁ ++ a :: as₂ ∧
    Run step s as₁ t ∧ step t a t' ∧ Run step t' as₂ u := by
  obtain ⟨as₁, as₂, rfl⟩ := List.append_of_mem ha
  obtain ⟨t, t', h₁, hst, h₂⟩ := h.split
  exact ⟨as₁, as₂, t, t', rfl, h₁, hst, h₂⟩

end Run

end Lib
