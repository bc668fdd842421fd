import Mathlib.Data.Nat.Init

/-!
# While loops

`WhileLoop test body` relates a state to how `while (test) body` ends from there. A loop that
does not end has no outcome. A test that reads what it must not has no value; the loop then has
the outcome `none`.
-/

namespace HandsOn.Semantics

universe u

variable {State : Type u}

/-- How a loop ends. -/
inductive WhileLoop (test : State → Option Bool) (body : State → State) :
    State → Option State → Prop where
  | fault {state : State} (undefined : test state = none) : WhileLoop test body state none
  | exit {state : State} (fails : test state = some false) :
      WhileLoop test body state (some state)
  | again {state : State} {outcome : Option State} (holds : test state = some true)
      (later : WhileLoop test body (body state) outcome) : WhileLoop test body state outcome

namespace WhileLoop

variable {test : State → Option Bool} {body : State → State}

/-- A function with the equation of the loop computes its outcome, if a variant falls in each
iteration. -/
theorem iff_of_equation (value : State → Option State) (variant : State → ℕ)
    (equation : ∀ state, value state = match test state with
      | none => none
      | some true => value (body state)
      | some false => some state)
    (falls : ∀ state, test state = some true → variant (body state) < variant state)
    {state : State} {outcome : Option State} :
    WhileLoop test body state outcome ↔ value state = outcome := by
  constructor
  · intro loop
    induction loop with
    | fault undefined => rw [equation, undefined]
    | exit fails => rw [equation, fails]
    | again holds _ ih => rw [equation, holds, ih]
  · intro same
    induction measure : variant state using Nat.strong_induction_on generalizing state with
    | _ _ ih =>
      rw [equation] at same
      cases tested : test state with
      | none =>
          rw [tested] at same
          exact same ▸ .fault tested
      | some goes =>
          rw [tested] at same
          cases goes with
          | false => exact same ▸ .exit tested
          | true => exact .again tested (ih _ (measure ▸ falls state tested) same rfl)

end WhileLoop

end HandsOn.Semantics
