import Mathlib.Data.List.Basic
import Mathlib.Data.List.Induction
import Mathlib.Tactic.Common

/-!
# Command lines

A program goes through its options, each a letter with an argument, and sets variables. A
variable that the options of some letters set, and no others, has the value of the last of them.
-/

namespace HandsOn.Semantics

universe u v w

variable {Letter : Type u} {Argument : Type v}

/-- The last option with one of the letters. -/
def lastOf (letters : Letter → Bool) (line : List (Letter × Argument)) :
    Option (Letter × Argument) :=
  (line.filter fun option => letters option.1).getLast?

/-- The argument of the last option with a letter. -/
def lastArgument [DecidableEq Letter] (letter : Letter) (line : List (Letter × Argument)) :
    Option Argument :=
  (lastOf (fun other => decide (other = letter)) line).map Prod.snd

/-- The options of a command line that another program has too, by its letters. -/
def sharedOptions {Other : Type w} (shared : Letter → Option Other)
    (line : List (Letter × Argument)) : List (Other × Argument) :=
  line.filterMap fun option => (shared option.1).map fun other => (other, option.2)

theorem lastOf_append (letters : Letter → Bool) (line : List (Letter × Argument))
    (option : Letter × Argument) :
    lastOf letters (line ++ [option]) =
      if letters option.1 then some option else lastOf letters line := by
  rw [lastOf, List.filter_append]
  split
  case isTrue relevant => simp [relevant]
  case isFalse irrelevant => simp [irrelevant, lastOf]

/-- The last option has one of the letters. -/
theorem lastOf_letter {letters : Letter → Bool} {line : List (Letter × Argument)}
    {option : Letter × Argument} (last : lastOf letters line = some option) :
    letters option.1 = true :=
  (List.mem_filter.mp (List.mem_of_getLast? last)).2

/-- The last option with one of the letters is also the last with one of fewer letters. -/
theorem lastOf_fewer {own letters : Letter → Bool} (among : ∀ letter, own letter → letters letter)
    {line : List (Letter × Argument)} (fewer : ∀ option ∈ lastOf letters line, own option.1) :
    lastOf own line = lastOf letters line := by
  induction line using List.reverseRecOn with
  | nil => rfl
  | append_singleton line option ih =>
      rw [lastOf_append] at fewer ⊢
      rw [lastOf_append]
      by_cases relevant : letters option.1
      · rw [if_pos relevant] at fewer ⊢
        rw [if_pos (fewer option rfl)]
      · rw [if_neg relevant] at fewer ⊢
        rw [if_neg fun belongs => relevant (among _ belongs), ih fewer]

/-- A variable set by the options of some letters has the value of the last of them. -/
theorem foldl_lastOf {State : Type u} {Value : Type w} (step : State → Letter × Argument → State)
    (get : State → Value) (letters : Letter → Bool) (value : Argument → Value)
    (sets : ∀ state option, letters option.1 → get (step state option) = value option.2)
    (keeps : ∀ state option, ¬ letters option.1 → get (step state option) = get state)
    (initial : State) (line : List (Letter × Argument)) :
    get (line.foldl step initial) =
      ((lastOf letters line).map fun option => value option.2).getD (get initial) := by
  induction line using List.reverseRecOn with
  | nil => rfl
  | append_singleton line option ih =>
      rw [List.foldl_append, List.foldl_cons, List.foldl_nil, lastOf_append]
      split
      case isTrue relevant => exact sets _ option relevant
      case isFalse irrelevant => rw [keeps _ option irrelevant, ih]

/-- The same for a variable with a letter of its own. -/
theorem foldl_lastArgument [DecidableEq Letter] {State : Type u} {Value : Type w}
    (step : State → Letter × Argument → State) (get : State → Value) (letter : Letter)
    (value : Argument → Value)
    (sets : ∀ state argument, get (step state (letter, argument)) = value argument)
    (keeps : ∀ state option, option.1 ≠ letter → get (step state option) = get state)
    (initial : State) (line : List (Letter × Argument)) :
    get (line.foldl step initial) =
      ((lastArgument letter line).map value).getD (get initial) := by
  have setsOwn : ∀ state option, decide (option.1 = letter) = true →
      get (step state option) = value option.2 := by
    rintro state ⟨other, argument⟩ own
    obtain rfl : other = letter := of_decide_eq_true own
    exact sets state argument
  have keepsOthers : ∀ state option, ¬ decide (option.1 = letter) = true →
      get (step state option) = get state :=
    fun state option other => keeps state option fun own => other (decide_eq_true own)
  rw [lastArgument, Option.map_map]
  exact foldl_lastOf step get _ value setsOwn keepsOthers initial line

theorem lastArgument_append [DecidableEq Letter] (letter : Letter)
    (line : List (Letter × Argument)) (option : Letter × Argument) :
    lastArgument letter (line ++ [option]) =
      if option.1 = letter then some option.2 else lastArgument letter line := by
  rw [lastArgument, lastOf_append]
  simp only [decide_eq_true_eq]
  split <;> rfl

/-- A shared letter has the same last argument for both programs. -/
theorem lastArgument_sharedOptions {Other : Type w} [DecidableEq Letter] [DecidableEq Other]
    {shared : Letter → Option Other} {letter : Letter} {other : Other}
    (only : ∀ candidate, shared candidate = some other ↔ candidate = letter)
    (line : List (Letter × Argument)) :
    lastArgument other (sharedOptions shared line) = lastArgument letter line := by
  induction line using List.reverseRecOn with
  | nil => rfl
  | append_singleton line option ih =>
      rw [sharedOptions, List.filterMap_append, ← sharedOptions, lastArgument_append, ← ih]
      cases known : shared option.1 with
      | none =>
          have different : option.1 ≠ letter := by
            rw [Ne, ← only, known]
            exact Option.some_ne_none other ∘ Eq.symm
          simp [known, different]
      | some candidate =>
          simp [known, lastArgument_append, ← only]

end HandsOn.Semantics
