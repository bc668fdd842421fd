import Mathlib.Data.Nat.Notation

/-!
# Checks that refuse

A sequence of checks, each of which ends it with a message where a condition holds.
-/

namespace HandsOn.Semantics

/-- Refuse with a message where a condition holds. -/
def refuse (condition : Prop) [Decidable condition] (message : String) : Except String Unit :=
  if condition then .error message else .ok ()

variable {Value : Type} {condition : Prop} [Decidable condition] {message : String}

theorem refuse_bind_ok {rest : Unit → Except String Value} {value : Value} :
    (refuse condition message >>= rest) = .ok value ↔ ¬ condition ∧ rest () = .ok value := by
  by_cases holds : condition
  · simp [refuse, holds, bind, Except.bind]
  · simp [refuse, holds, bind, Except.bind]

theorem refuse_ok : refuse condition message = .ok () ↔ ¬ condition := by
  by_cases holds : condition <;> simp [refuse, holds]

end HandsOn.Semantics
