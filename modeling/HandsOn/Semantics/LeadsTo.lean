import HandsOn.Semantics.Transition
import Mathlib.Order.Nat

/-!
# Infinite runs and weak fairness

In an infinite run a system may also idle, for ever if it likes. A set of actions is treated
fairly if it is not enabled from some time on without one of them being taken. `P` leads to `Q` if
`Q` holds at some time from each time on at which `P` holds.
-/

namespace HandsOn.Semantics.System

universe u v

variable {State : Type u} {Action : Type v} {system : System State Action}

/-- An infinite run; where `action` is `none` nothing happens. -/
structure Execution (system : System State Action) where
  state : ℕ → State
  action : ℕ → Option Action
  initial : system.Initial (state 0)
  idle : ∀ {n}, action n = none → state (n + 1) = state n
  taken : ∀ {n chosen}, action n = some chosen → system.Step (state n) chosen (state (n + 1))

namespace Execution

variable (execution : system.Execution)

/-- One of the `Own` actions can be taken. -/
def Enabled (system : System State Action) (Own : Action → Prop) (state : State) : Prop :=
  ∃ action next, Own action ∧ system.Step state action next

/-- If `Own` actions are enabled from some time on, one of them is taken. -/
def WeaklyFair (Own : Action → Prop) : Prop :=
  ∀ n, (∀ m, n ≤ m → Enabled system Own (execution.state m)) →
    ∃ m, n ≤ m ∧ ∃ action, execution.action m = some action ∧ Own action

def LeadsTo (P Q : State → Prop) : Prop :=
  ∀ n, P (execution.state n) → ∃ m, n ≤ m ∧ Q (execution.state m)

variable {execution}

theorem reachable (n : ℕ) : system.Reachable (execution.state n) := by
  induction n with
  | zero => exact .initial execution.initial
  | succ n ih =>
      cases chosen : execution.action n with
      | none =>
          rw [execution.idle chosen]
          exact ih
      | some action => exact ih.steps (.single (execution.taken chosen))

theorem LeadsTo.trans {P Q R : State → Prop} (first : execution.LeadsTo P Q)
    (second : execution.LeadsTo Q R) : execution.LeadsTo P R := by
  intro n holds
  obtain ⟨m, later, holds⟩ := first n holds
  obtain ⟨last, later', holds⟩ := second m holds
  exact ⟨last, later.trans later', holds⟩

/-- What steps keep until `Q` holds at all times up to then. -/
theorem kept_or_reached {P Q : State → Prop}
    (keeps : ∀ {state action next}, system.Reachable state → P state →
      system.Step state action next → P next ∨ Q next)
    {n m : ℕ} (later : n ≤ m) (holds : P (execution.state n)) :
    P (execution.state m) ∨ ∃ k, n ≤ k ∧ Q (execution.state k) := by
  induction m, later using Nat.le_induction with
  | base => exact .inl holds
  | succ m later ih =>
      rcases ih with holds | done
      · cases chosen : execution.action m with
        | none =>
            rw [execution.idle chosen]
            exact .inl holds
        | some action =>
            exact (keeps (reachable m) holds (execution.taken chosen)).imp_right
              fun reached => ⟨m + 1, Nat.le_succ_of_le later, reached⟩
      · exact .inr done

/-- Rule for fair actions: they are enabled and lead to `Q`, and nothing else ends `P`. -/
theorem leadsTo_of_fair {Own : Action → Prop} (fair : execution.WeaklyFair Own)
    {P Q : State → Prop}
    (enabled : ∀ {state}, system.Reachable state → P state → Enabled system Own state)
    (helps : ∀ {state action next}, system.Reachable state → P state →
      system.Step state action next → Own action → Q next)
    (keeps : ∀ {state action next}, system.Reachable state → P state →
      system.Step state action next → ¬ Own action → P next ∨ Q next) :
    execution.LeadsTo P Q := by
  classical
  intro n holds
  by_contra never
  have always : ∀ m, n ≤ m → P (execution.state m) := by
    intro m later
    refine (kept_or_reached (fun reached here step => ?_) later holds).resolve_right never
    rename_i action _
    by_cases own : Own action
    · exact .inr (helps reached here step own)
    · exact keeps reached here step own
  obtain ⟨m, later, action, chosen, own⟩ :=
    fair n fun m later => enabled (reachable m) (always m later)
  exact never ⟨m + 1, Nat.le_succ_of_le later,
    helps (reachable m) (always m later) (execution.taken chosen) own⟩

/-- Rule for a measure: what leads to something smaller leads to the end. -/
theorem leadsTo_of_smaller {P : ℕ → State → Prop} {Q : State → Prop}
    (smaller : ∀ bound, execution.LeadsTo (P bound)
      fun state => Q state ∨ ∃ less < bound, P less state) (bound : ℕ) :
    execution.LeadsTo (P bound) Q := by
  induction bound using Nat.strong_induction_on with
  | _ bound ih =>
    refine (smaller bound).trans fun n holds => ?_
    rcases holds with done | ⟨less, below, holds⟩
    · exact ⟨n, Nat.le_refl n, done⟩
    · exact ih less below n holds

/-! ### A finite run and nothing after it -/

/-- The state after the first `n` actions. -/
def after (step : State → Action → Option State) (start : State) (actions : List Action) :
    ℕ → State
  | 0 => start
  | n + 1 => (actions[n]?.bind (step (after step start actions n))).getD
      (after step start actions n)

/-- The listed actions, then idleness. -/
def ofActions {Initial : State → Prop} {step : State → Action → Option State} {start : State}
    (valid : Initial start) (actions : List Action)
    (enabled : ∀ n (inside : n < actions.length),
      (step (after step start actions n) actions[n]).isSome) :
    (computed Initial step).Execution where
  state := after step start actions
  action n := actions[n]?
  initial := valid
  idle := by
    intro n finished
    rw [after, finished]
    rfl
  taken := by
    intro n action chosen
    obtain ⟨inside, rfl⟩ := List.getElem?_eq_some_iff.mp chosen
    obtain ⟨next, step⟩ := Option.isSome_iff_exists.mp (enabled n inside)
    rw [after, chosen, Option.bind_some, step]
    exact step

/-- A run that ends with nothing of `Own` enabled is fair. -/
theorem weaklyFair_of_finished {Initial : State → Prop} {step : State → Action → Option State}
    {start : State} {valid : Initial start} {actions : List Action}
    {enabled : ∀ n (inside : n < actions.length),
      (step (after step start actions n) actions[n]).isSome} {Own : Action → Prop}
    (finished : ¬ Enabled (computed Initial step) Own (after step start actions actions.length)) :
    (ofActions valid actions enabled).WeaklyFair Own := by
  have still : ∀ m, actions.length ≤ m →
      after step start actions m = after step start actions actions.length := by
    intro m late
    induction m, late using Nat.le_induction with
    | base => rfl
    | succ m late ih =>
        rw [after, List.getElem?_eq_none late]
        exact ih
  intro n always
  have there := always (max n actions.length) (le_max_left _ _)
  change Enabled _ Own (after step start actions _) at there
  rw [still _ (le_max_right _ _)] at there
  exact absurd there finished

end Execution

end HandsOn.Semantics.System
