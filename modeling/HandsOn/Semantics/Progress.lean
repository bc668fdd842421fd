import HandsOn.Semantics.Transition
import Mathlib.Algebra.Order.BigOperators.Group.Finset

/-!
# Measures of progress

Where a step brings one process on, it raises the sum over all processes. A system that is never
stuck comes to an end if its steps raise a bounded measure.
-/

namespace HandsOn.Semantics

universe u v

/-- One more step of one process is one more step of all. -/
theorem sum_succ {Process : Type u} {processes : Finset Process} {p : Process}
    {before after : Process → ℕ} (listed : p ∈ processes) (own : after p = before p + 1)
    (others : ∀ q ∈ processes, q ≠ p → after q = before q) :
    ∑ q ∈ processes, after q = ∑ q ∈ processes, before q + 1 := by
  classical
  rw [← Finset.add_sum_erase _ _ listed, ← Finset.add_sum_erase _ before listed, own,
    Finset.sum_congr rfl fun q inside =>
      others q (Finset.mem_of_mem_erase inside) (Finset.ne_of_mem_erase inside)]
  exact Nat.add_right_comm _ _ _

namespace System

variable {State : Type u} {Action : Type v} {system : System State Action}

/-- A system that is never stuck, and whose steps raise a bounded measure, can be run to the
end. -/
theorem NeverStuck.finishes {Unfinished : State → Prop} (never : system.NeverStuck Unfinished)
    {measure : State → ℕ} {bound : ℕ}
    (raised : ∀ {state action next}, system.Reachable state → system.Step state action next →
      measure state < measure next)
    (bounded : ∀ {state}, system.Reachable state → measure state ≤ bound) {state : State}
    (reachable : system.Reachable state) :
    ∃ trace finish, system.Steps state trace finish ∧ ¬ Unfinished finish := by
  induction room : bound - measure state using Nat.strong_induction_on generalizing state with
  | _ left shorter =>
    by_cases unfinished : Unfinished state
    · obtain ⟨action, next, taken⟩ := never state reachable unfinished
      have later : system.Reachable next := reachable.steps (.single taken)
      have higher := raised reachable taken
      have within := bounded later
      obtain ⟨trace, finish, run, done⟩ :=
        shorter (bound - measure next) (by omega) later rfl
      exact ⟨_, finish, (Steps.single taken).trans run, done⟩
    · exact ⟨[], state, .refl, unfinished⟩

end System

end HandsOn.Semantics
