import Mathlib.Logic.Function.Basic

/-!
# Transition systems, inductive invariants and simulations

The logic of the two handshakes of the driver (`Boot.PushCode`, `Link.Transfer`): a system is its
initial states and one step relation, in which every atomic step of every party is one step, so a
run is an interleaving of the parties.

* `Sys.Reach`: the states that a run reaches; `Reach.inv`: the rule of inductive invariants.
* `Sys.Simulates A R`: each step of the concrete system is matched by one step, or by none, of the
  abstract system `A`. The rule may use the invariants of `A`, since the matched abstract state is
  reachable (`Simulates.reach`).
* `Sys.Steps S s n t`: a run of `n` steps. A count that every step raises by one and that is bounded
  on the reachable states bounds the runs (`Steps.count`), and a system of which no run is longer than
  `N` has a final state behind every state (`exists_final`). Where a run leads to `Good` or to a state of
  a higher rank, and the ranks are bounded, `Good` stays in reach (`exists_good`).
-/

namespace Lib

/-- A transition system: its initial states and its steps. -/
structure Sys (σ : Type) where
  init : σ → Prop
  step : σ → σ → Prop

namespace Sys

variable {σ τ : Type} {S : Sys σ} {A : Sys τ}

/-- The states that a run reaches. -/
inductive Reach (S : Sys σ) : σ → Prop
  | start {s : σ} : S.init s → Reach S s
  | next {s t : σ} : Reach S s → S.step s t → Reach S t

/-- What holds initially and is kept by every step holds of every reachable state. -/
theorem Reach.inv {I : σ → Prop} (h0 : ∀ s, S.init s → I s)
    (hstep : ∀ s t, I s → S.step s t → I t) {s : σ} (hs : S.Reach s) : I s := by
  induction hs with
  | start h => exact h0 _ h
  | next _ hst ih => exact hstep _ _ ih hst

/-- `S` is simulated by `A` along `R`: initial states are related, and a step from related states
leads to related states, where `A` takes one step or stays. -/
structure Simulates (S : Sys σ) (A : Sys τ) (R : σ → τ → Prop) : Prop where
  start : ∀ s, S.init s → ∃ a, A.init a ∧ R s a
  step : ∀ s t a, A.Reach a → R s a → S.step s t → ∃ b, (b = a ∨ A.step a b) ∧ R t b

/-- Every reachable state is related to a reachable abstract state. -/
theorem Simulates.reach {R : σ → τ → Prop} (h : Simulates S A R) {s : σ} (hs : S.Reach s) :
    ∃ a, A.Reach a ∧ R s a := by
  induction hs with
  | start hi =>
    obtain ⟨a, ha, hR⟩ := h.start _ hi
    exact ⟨a, .start ha, hR⟩
  | next _ hst ih =>
    obtain ⟨a, ha, hR⟩ := ih
    obtain ⟨b, rfl | hb, hR'⟩ := h.step _ _ a ha hR hst
    · exact ⟨b, ha, hR'⟩
    · exact ⟨b, .next ha hb, hR'⟩

/-! ## Runs with their length -/

/-- `n` steps lead from one state to another. -/
inductive Steps (S : Sys σ) (s : σ) : Nat → σ → Prop
  | start : Steps S s 0 s
  | next {n : Nat} {t u : σ} : Steps S s n t → S.step t u → Steps S s (n + 1) u

/-- No step leads on. -/
def Final (S : Sys σ) (s : σ) : Prop := ∀ t, ¬ S.step s t

variable {s t : σ} {n : Nat}

theorem Steps.reach (h : S.Steps s n t) (hs : S.Reach s) : S.Reach t := by
  induction h with
  | start => exact hs
  | next _ hst ih => exact .next ih hst

/-- A count that every step from a reachable state raises by one counts the steps. -/
theorem Steps.count {f : σ → Int} (hf : ∀ s t, S.Reach s → S.step s t → f t = f s + 1)
    (h : S.Steps s n t) (hs : S.Reach s) : f t = f s + n := by
  induction h with
  | start => exact (Int.add_zero _).symm
  | next h hst ih =>
    rw [hf _ _ (h.reach hs) hst, ih]
    push_cast
    exact Int.add_assoc ..

theorem Steps.append {m : Nat} {u : σ} (h : S.Steps s n t) (h' : S.Steps t m u) :
    S.Steps s (n + m) u := by
  induction h' with
  | start => exact h
  | next _ hst ih => exact .next ih hst

/-- Where no run is longer than `N`, one of the runs is final. -/
theorem exists_final {N : Nat} (hN : ∀ n t, S.Steps s n t → n ≤ N) :
    ∃ n t, S.Steps s n t ∧ S.Final t := by
  suffices h : ∀ k n t, S.Steps s n t → N - n ≤ k → ∃ n t, S.Steps s n t ∧ S.Final t from
    h N 0 s .start (Nat.sub_le N 0)
  intro k
  induction k with
  | zero =>
    intro n t hrun hk
    refine ⟨n, t, hrun, fun u hst => ?_⟩
    have := hN _ _ (hrun.next hst)
    omega
  | succ k ih =>
    intro n t hrun hk
    by_cases hf : S.Final t
    · exact ⟨n, t, hrun, hf⟩
    · simp only [Final, not_forall, not_not] at hf
      obtain ⟨u, hst⟩ := hf
      exact ih (n + 1) u (hrun.next hst) (by omega)

theorem Steps.one (h : S.step s t) : S.Steps s 1 t := .next .start h

/-- **The rule of progress**: `Good` is in reach of every reachable state, where each has a run to it or
to a higher rank `f`, and no rank is above `N`. -/
theorem exists_good {Good : σ → Prop} {f : σ → Nat} {N : Nat} (hN : ∀ s, S.Reach s → f s ≤ N)
    (hup : ∀ s, S.Reach s → ∃ n t, S.Steps s n t ∧ (Good t ∨ f s < f t)) (hs : S.Reach s) :
    ∃ n t, S.Steps s n t ∧ Good t := by
  generalize hk : N - f s = k
  induction k using Nat.strongRecOn generalizing s with
  | ind k ih =>
    obtain ⟨n, t, hrun, hg | hlt⟩ := hup s hs
    · exact ⟨n, t, hrun, hg⟩
    · have ht := hrun.reach hs
      have hle := hN t ht
      obtain ⟨m, u, hrun', hg⟩ := ih (N - f t) (by omega) ht rfl
      exact ⟨n + m, u, hrun.append hrun', hg⟩

end Sys

end Lib
