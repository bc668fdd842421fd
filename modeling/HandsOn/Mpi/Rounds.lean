import HandsOn.Semantics.Transition
import Mathlib.Data.Finset.Max
import Mathlib.Logic.Function.Basic
import Mathlib.Order.Basic

/-!
# Collective calls with early returns

Processes that make the same collective calls in the same order, of which each may return after
any of them. Where one process returns and another does not, the other is alone in its next call.
-/

namespace HandsOn.Mpi.Rounds

open Semantics

universe u v

/-- `size` processes that make `calls`. No process leaves a call that synchronises before all
have entered it. After the call with number `n` a process may return with a code, and after the
last one it does. -/
structure Program (Call : Type u) (Code : Type v) where
  size : ℕ
  calls : List Call
  synchronises : Call → Bool
  exit : ℕ → ℕ → Option Code
  nonempty : calls ≠ []
  ends : ∀ p < size, (exit (calls.length - 1) p).isSome = true

/-- A process before or inside the call with number `n`, or after it with its code. -/
inductive Standing (Code : Type v) where
  | before (n : ℕ)
  | inside (n : ℕ)
  | returned (n : ℕ) (code : Code)
deriving DecidableEq

/-- The number of calls that a process has entered. -/
def Standing.entered {Code : Type v} : Standing Code → ℕ
  | before n => n
  | inside n => n + 1
  | returned n _ => n + 1

inductive Action where
  | enter (p : ℕ)
  | leave (p : ℕ)

variable {Call : Type u} {Code : Type v}

/-- Where each process is. -/
abbrev State (Code : Type v) := ℕ → Standing Code

namespace Program

variable (program : Program Call Code)

/-- A process may leave the call with number `n`. -/
def Released (state : State Code) (n : ℕ) : Prop :=
  ∀ call ∈ program.calls[n]?, program.synchronises call = true →
    ∀ q < program.size, n < (state q).entered

instance (state : State Code) (n : ℕ) : Decidable (program.Released state n) :=
  inferInstanceAs (Decidable (∀ call ∈ program.calls[n]?, _))

/-- A process after the call with number `n`. -/
def after (n p : ℕ) : Standing Code :=
  match program.exit n p with
  | none => .before (n + 1)
  | some code => .returned n code

/-- A step of one process; `none` where it has to wait. -/
def step (state : State Code) : Action → Option (State Code)
  | .enter p =>
      match state p with
      | .before n =>
          if p < program.size ∧ n < program.calls.length then
            some (Function.update state p (.inside n))
          else none
      | _ => none
  | .leave p =>
      match state p with
      | .inside n =>
          if p < program.size ∧ program.Released state n then
            some (Function.update state p (program.after n p))
          else none
      | _ => none

/-- The system of the processes. -/
def system : System (State Code) Action :=
  System.computed (· = fun _ => .before 0) program.step

/-- A step that no implementation may delay further: a process that leaves a call does so after
all have entered it. -/
def Due (state : State Code) : Action → Prop
  | .enter _ => True
  | .leave p => ∀ q < program.size, (state p).entered ≤ (state q).entered

/-- The processes stay together in every run: none returns while another is in a later call,
those that return have made the same calls and agree on success, and none waits for ever. -/
structure Together (succeeds : Code → Prop) : Prop where
  noneBehind : ∀ state, program.system.Reachable state → ∀ p < program.size, ∀ n code,
    state p = .returned n code → ∀ q < program.size, (state q).entered ≤ n + 1
  sameCalls : ∀ state, program.system.Reachable state → ∀ p < program.size, ∀ q < program.size,
    ∀ n m code code', state p = .returned n code → state q = .returned m code' →
      program.calls.take (n + 1) = program.calls.take (m + 1)
  verdict : ∀ state, program.system.Reachable state → ∀ p < program.size, ∀ q < program.size,
    ∀ n m code code', state p = .returned n code → state q = .returned m code' →
      (succeeds code ↔ succeeds code')
  progress : ∀ state, program.system.Reachable state →
    (∃ p < program.size, ∀ n code, state p ≠ .returned n code) →
      ∃ action next, program.step state action = some next ∧ program.Due state action

/-- All processes return after the call with number `n`, and agree on success. -/
structure ExitTogether (succeeds : Code → Prop) (n : ℕ) : Prop where
  exits : ∀ p < program.size, (program.exit n p).isSome = true
  earlier : ∀ p < program.size, ∀ k < n, program.exit k p = none
  verdict : ∀ p < program.size, ∀ q < program.size, ∀ code ∈ program.exit n p,
    ∀ code' ∈ program.exit n q, (succeeds code ↔ succeeds code')

/-! ### What a step does -/

/-- The steps. -/
inductive Stepped (state : State Code) : Action → State Code → Prop where
  | enter {p n : ℕ} (bounded : p < program.size) (before : state p = .before n)
      (within : n < program.calls.length) :
      Stepped state (.enter p) (Function.update state p (.inside n))
  | leave {p n : ℕ} (bounded : p < program.size) (inside : state p = .inside n)
      (released : program.Released state n) :
      Stepped state (.leave p) (Function.update state p (program.after n p))

variable {program} {state next : State Code}

theorem stepped_iff {action : Action} :
    program.step state action = some next ↔ program.Stepped state action next := by
  constructor
  · intro taken
    cases action with
    | enter p =>
      simp only [step] at taken
      split at taken
      case h_1 n before =>
        obtain ⟨⟨bounded, within⟩, same⟩ := Option.ite_none_right_eq_some.mp taken
        cases same
        exact .enter bounded before within
      case h_2 => cases taken
    | leave p =>
      simp only [step] at taken
      split at taken
      case h_1 n inside =>
        obtain ⟨⟨bounded, released⟩, same⟩ := Option.ite_none_right_eq_some.mp taken
        cases same
        exact .leave bounded inside released
      case h_2 => cases taken
  · rintro (⟨bounded, before, within⟩ | ⟨bounded, inside, released⟩)
    · simp only [step, before]
      exact if_pos ⟨bounded, within⟩
    · simp only [step, inside]
      exact if_pos ⟨bounded, released⟩

/-! ### What holds in every run -/

/-- A process has not returned from the calls before the one where it is. -/
inductive Follows (program : Program Call Code) (p : ℕ) : Standing Code → Prop where
  | before {n : ℕ} (passed : ∀ k < n, program.exit k p = none) : Follows program p (.before n)
  | inside {n : ℕ} (passed : ∀ k < n, program.exit k p = none) : Follows program p (.inside n)
  | returned {n : ℕ} {code : Code} (passed : ∀ k < n, program.exit k p = none)
      (exits : program.exit n p = some code) : Follows program p (.returned n code)

/-- A process that has entered a later call has not returned from an earlier one. -/
theorem Follows.passed {p k : ℕ} {standing : Standing Code} (follows : Follows program p standing)
    (later : k + 1 < standing.entered) : program.exit k p = none := by
  cases follows with
  | before passed => exact passed k (Nat.lt_of_succ_lt later)
  | inside passed => exact passed k (Nat.lt_of_succ_lt_succ later)
  | returned passed _ => exact passed k (Nat.lt_of_succ_lt_succ later)

theorem follows_after {n p : ℕ} (passed : ∀ k < n, program.exit k p = none) :
    Follows program p (program.after n p) := by
  rw [after]
  split
  case h_1 stays =>
    refine .before fun k below => ?_
    rcases Nat.lt_succ_iff_lt_or_eq.mp below with earlier | rfl
    · exact passed k earlier
    · exact stays
  case h_2 code exits => exact .returned passed exits

/-- In every reachable state a process follows the program. -/
theorem follows_of_reachable (reachable : program.system.Reachable state) (p : ℕ) :
    Follows program p (state p) := by
  refine reachable.invariant (P := fun state => ∀ p, Follows program p (state p)) ?_ ?_ p
  · rintro state rfl p
    exact .before fun k below => absurd below k.not_lt_zero
  · intro state action next follows taken q
    cases stepped_iff.mp taken with
    | @enter p n bounded before within =>
      by_cases own : q = p
      · obtain rfl := own
        rw [Function.update_self]
        have here := follows q
        rw [before] at here
        cases here with
        | before passed => exact .inside passed
      · rw [Function.update_of_ne own]
        exact follows q
    | @leave p n bounded inside released =>
      by_cases own : q = p
      · obtain rfl := own
        rw [Function.update_self]
        have here := follows q
        rw [inside] at here
        cases here with
        | inside passed => exact follows_after passed
      · rw [Function.update_of_ne own]
        exact follows q

/-- Where all processes return after one call, none enters a later one. -/
theorem ExitTogether.entered_le {succeeds : Code → Prop} {n : ℕ}
    (together : program.ExitTogether succeeds n) (reachable : program.system.Reachable state)
    {p : ℕ} (bounded : p < program.size) : (state p).entered ≤ n + 1 := by
  by_contra later
  have exits := together.exits p bounded
  rw [(follows_of_reachable reachable p).passed (Nat.not_le.mp later)] at exits
  exact Bool.false_ne_true exits

/-- Where all processes return after one call, none returns earlier. -/
theorem ExitTogether.returned_eq {succeeds : Code → Prop} {n k p : ℕ} {code : Code}
    (together : program.ExitTogether succeeds n) (reachable : program.system.Reachable state)
    (bounded : p < program.size) (returned : state p = .returned k code) :
    k = n ∧ program.exit n p = some code := by
  have follows := follows_of_reachable reachable p
  have entered := together.entered_le reachable bounded
  rw [returned] at follows entered
  cases follows with
  | returned passed exits =>
    have same : k = n := by
      refine Nat.le_antisymm (Nat.le_of_succ_le_succ entered) ?_
      by_contra earlier
      rw [together.earlier p bounded k (Nat.not_le.mp earlier)] at exits
      cases exits
    exact ⟨same, same ▸ exits⟩

/-- Where all processes return after one call, one that has not entered it can enter the next. -/
theorem ExitTogether.enter {succeeds : Code → Prop} {n p k : ℕ} (within : n < program.calls.length)
    (together : program.ExitTogether succeeds n) (reachable : program.system.Reachable state)
    (bounded : p < program.size) (before : state p = .before k) :
    ∃ next, program.step state (.enter p) = some next := by
  have follows := follows_of_reachable reachable p
  rw [before] at follows
  have notLater : k ≤ n := by
    by_contra later
    have exits := together.exits p bounded
    cases follows with
    | before passed =>
      rw [passed n (Nat.not_le.mp later)] at exits
      exact Bool.false_ne_true exits
  exact ⟨_, stepped_iff.mpr (.enter bounded before (Nat.lt_of_le_of_lt notLater within))⟩

/-- Where no process is between calls, one of those inside a call has entered the fewest. -/
theorem ExitTogether.exists_least {succeeds : Code → Prop} {n : ℕ}
    (together : program.ExitTogether succeeds n) (reachable : program.system.Reachable state)
    (entered : ∀ p < program.size, ∀ k, state p ≠ .before k)
    (unfinished : ∃ p < program.size, ∀ n code, state p ≠ .returned n code) :
    ∃ p < program.size, ∃ k, state p = .inside k ∧
      ∀ q < program.size, (state p).entered ≤ (state q).entered := by
  have waiting : ∀ q < program.size, (∀ k, state q ≠ .inside k) →
      ∃ k code, state q = .returned k code := by
    intro q bounded outside
    cases standing : state q with
    | before k => exact absurd standing (entered q bounded k)
    | inside k => exact absurd standing (outside k)
    | returned k code => exact ⟨k, code, rfl⟩
  classical
  obtain ⟨p, bounded, busy⟩ := unfinished
  have inside : ∃ k, state p = .inside k := by
    by_contra outside
    obtain ⟨k, code, returned⟩ := waiting p bounded (not_exists.mp outside)
    exact busy k code returned
  obtain ⟨first, listed, fewest⟩ := Finset.exists_min_image
    ((Finset.range program.size).filter fun q => ∃ k, state q = .inside k)
    (fun q => (state q).entered) ⟨p, by simp [bounded, inside]⟩
  obtain ⟨range, k, here⟩ := Finset.mem_filter.mp listed
  have bounded' := Finset.mem_range.mp range
  refine ⟨first, bounded', k, here, fun q below => ?_⟩
  by_cases also : ∃ k, state q = .inside k
  · exact fewest q (Finset.mem_filter.mpr ⟨Finset.mem_range.mpr below, also⟩)
  · obtain ⟨m, code, returned⟩ := waiting q below (not_exists.mp also)
    obtain ⟨rfl, -⟩ := together.returned_eq reachable below returned
    rw [returned]
    exact together.entered_le reachable bounded'

/-- Where all processes return after one call, those that have not returned can go on. -/
theorem ExitTogether.progress {succeeds : Code → Prop} {n : ℕ} (within : n < program.calls.length)
    (together : program.ExitTogether succeeds n) (reachable : program.system.Reachable state)
    (unfinished : ∃ p < program.size, ∀ n code, state p ≠ .returned n code) :
    ∃ action next, program.step state action = some next ∧ program.Due state action := by
  by_cases between : ∃ p < program.size, ∃ k, state p = .before k
  · obtain ⟨p, bounded, k, before⟩ := between
    obtain ⟨next, taken⟩ := together.enter within reachable bounded before
    exact ⟨.enter p, next, taken, trivial⟩
  · have entered : ∀ p < program.size, ∀ k, state p ≠ .before k :=
      fun p bounded k before => between ⟨p, bounded, k, before⟩
    obtain ⟨first, bounded, k, here, least⟩ := together.exists_least reachable entered unfinished
    have released : program.Released state k := by
      intro call _ _ q below
      have more := least q below
      rw [here] at more
      exact more
    exact ⟨.leave first, _, stepped_iff.mpr (.leave bounded here released), least⟩

/-- Processes that all return after one call stay together. -/
theorem ExitTogether.together {succeeds : Code → Prop} {n : ℕ}
    (within : n < program.calls.length) (exits : program.ExitTogether succeeds n) :
    program.Together succeeds where
  noneBehind state reachable p bounded k code returned q below := by
    rw [(exits.returned_eq reachable bounded returned).1]
    exact exits.entered_le reachable below
  sameCalls state reachable p bounded q below k m code code' returned returned' := by
    rw [(exits.returned_eq reachable bounded returned).1,
      (exits.returned_eq reachable below returned').1]
  verdict state reachable p bounded q below k m code code' returned returned' :=
    exits.verdict p bounded q below code (exits.returned_eq reachable bounded returned).2 code'
      (exits.returned_eq reachable below returned').2
  progress state reachable unfinished := exits.progress within reachable unfinished

/-! ### A run round by round -/

/-- The processes below `count` have entered the call with number `n`, and the others have
completed the calls before it. -/
def Entering (program : Program Call Code) (n count : ℕ) (state : State Code) : Prop :=
  (∀ q < count, state q = .inside n) ∧ ∀ q < program.size, count ≤ q → state q = .before n

/-- The processes below `count` have left the call with number `n`, and the others have not. -/
def Leaving (program : Program Call Code) (n count : ℕ) (state : State Code) : Prop :=
  (∀ q < count, state q = program.after n q) ∧ ∀ q < program.size, count ≤ q → state q = .inside n

theorem exists_entering {n : ℕ} (within : n < program.calls.length)
    (reachable : program.system.Reachable state)
    (before : ∀ p < program.size, state p = .before n) {count : ℕ} (some : count ≤ program.size) :
    ∃ state, program.system.Reachable state ∧ Entering program n count state := by
  induction count with
  | zero =>
    exact ⟨state, reachable, fun q below => absurd below q.not_lt_zero,
      fun q below _ => before q below⟩
  | succ count ih =>
    obtain ⟨state, reachable, entered, others⟩ := ih (Nat.le_of_succ_le some)
    have taken := stepped_iff.mpr (.enter some (others count some (Nat.le_refl _)) within)
    refine ⟨_, reachable.steps (.single taken), fun q below => ?_, fun q below above => ?_⟩
    · rcases Nat.lt_succ_iff_lt_or_eq.mp below with earlier | rfl
      · rw [Function.update_of_ne (Nat.ne_of_lt earlier)]
        exact entered q earlier
      · rw [Function.update_self]
    · rw [Function.update_of_ne (Nat.ne_of_gt above)]
      exact others q below (Nat.le_of_succ_le above)

theorem entered_after (n p : ℕ) : (program.after n p).entered = n + 1 := by
  rw [after]
  split <;> rfl

theorem exists_leaving {n : ℕ} (reachable : program.system.Reachable state)
    (inside : Entering program n program.size state) {count : ℕ} (some : count ≤ program.size) :
    ∃ state, program.system.Reachable state ∧ Leaving program n count state := by
  induction count with
  | zero =>
    exact ⟨state, reachable, fun q below => absurd below q.not_lt_zero,
      fun q below _ => inside.1 q below⟩
  | succ count ih =>
    obtain ⟨state, reachable, left, others⟩ := ih (Nat.le_of_succ_le some)
    have released : program.Released state n := by
      intro call _ _ q below
      rcases Nat.lt_or_ge q count with earlier | later
      · rw [left q earlier, entered_after]
        exact Nat.lt_succ_self n
      · rw [others q below later]
        exact Nat.lt_succ_self n
    have taken := stepped_iff.mpr (.leave some (others count some (Nat.le_refl _)) released)
    refine ⟨_, reachable.steps (.single taken), fun q below => ?_, fun q below above => ?_⟩
    · rcases Nat.lt_succ_iff_lt_or_eq.mp below with earlier | rfl
      · rw [Function.update_of_ne (Nat.ne_of_lt earlier)]
        exact left q earlier
      · rw [Function.update_self]
    · rw [Function.update_of_ne (Nat.ne_of_gt above)]
      exact others q below (Nat.le_of_succ_le above)

/-- All processes take a call together. -/
theorem exists_round {n : ℕ} (within : n < program.calls.length)
    (reachable : program.system.Reachable state)
    (before : ∀ p < program.size, state p = .before n) :
    ∃ state, program.system.Reachable state ∧ ∀ p < program.size, state p = program.after n p := by
  obtain ⟨_, reachable, entered⟩ := exists_entering within reachable before (Nat.le_refl _)
  obtain ⟨state, reachable, left⟩ := exists_leaving reachable entered (Nat.le_refl _)
  exact ⟨state, reachable, left.1⟩

/-- Up to a call from which none has returned, all processes come together. -/
theorem exists_before {n : ℕ} (within : n < program.calls.length)
    (passed : ∀ k < n, ∀ p < program.size, program.exit k p = none) :
    ∃ state, program.system.Reachable state ∧ ∀ p < program.size, state p = .before n := by
  induction n with
  | zero => exact ⟨_, .initial rfl, fun p _ => rfl⟩
  | succ n ih =>
    obtain ⟨_, reachable, before⟩ := ih (Nat.lt_of_succ_lt within)
      fun k below => passed k (Nat.lt_succ_of_lt below)
    obtain ⟨state, reachable, left⟩ := exists_round (Nat.lt_of_succ_lt within) reachable before
    refine ⟨state, reachable, fun p bounded => ?_⟩
    rw [left p bounded, after, passed n (Nat.lt_succ_self n) p bounded]

/-- Where one process returns, those that stay together with it return too. -/
theorem Together.exitTogether {succeeds : Code → Prop} (together : program.Together succeeds)
    {n p : ℕ} (within : n < program.calls.length)
    (earlier : ∀ k < n, ∀ q < program.size, program.exit k q = none) (bounded : p < program.size)
    (exits : (program.exit n p).isSome = true) : program.ExitTogether succeeds n := by
  obtain ⟨_, reachable, before⟩ := exists_before within earlier
  obtain ⟨state, reachable, left⟩ := exists_round within reachable before
  have returned : ∀ q < program.size, ∀ code, program.exit n q = some code →
      state q = .returned n code := by
    intro q below code exit
    rw [left q below, after, exit]
  obtain ⟨code, exit⟩ := Option.isSome_iff_exists.mp exits
  refine ⟨fun q below => ?_, fun q below k previous => earlier k previous q below,
    fun q below r below' code exit code' exit' => ?_⟩
  · by_contra stays
    rw [Bool.not_eq_true, Option.isSome_eq_false_iff, Option.isNone_iff_eq_none] at stays
    have later : n + 1 < program.calls.length := by
      by_contra last
      have ends := program.ends q below
      rw [show program.calls.length - 1 = n by omega, stays] at ends
      exact Bool.false_ne_true ends
    have here : state q = .before (n + 1) := by rw [left q below, after, stays]
    have taken := stepped_iff.mpr (.enter below here later)
    have other : p ≠ q := by
      rintro rfl
      rw [stays] at exit
      cases exit
    have ahead := together.noneBehind _ (reachable.steps (.single taken)) p bounded n code
      (by rw [Function.update_of_ne other, returned p bounded code exit]) q below
    rw [Function.update_self] at ahead
    exact absurd ahead (Nat.not_succ_le_self _)
  · exact together.verdict state reachable q below r below' n n code code'
      (returned q below code exit) (returned r below' code' exit')

/-- Processes that stay together return after one call. -/
theorem Together.exists_exit {succeeds : Code → Prop} (together : program.Together succeeds) :
    ∃ n < program.calls.length, program.ExitTogether succeeds n := by
  have last : program.calls.length - 1 < program.calls.length :=
    Nat.sub_one_lt_of_lt (List.length_pos_of_ne_nil program.nonempty)
  classical
  by_cases lone : program.size = 0
  · exact ⟨_, last, by simp [lone], by simp [lone], by simp [lone]⟩
  · have lastExits :
        ∃ p < program.size, (program.exit (program.calls.length - 1) p).isSome = true :=
      ⟨0, Nat.pos_of_ne_zero lone, program.ends 0 (Nat.pos_of_ne_zero lone)⟩
    have someone : ∃ n, ∃ p < program.size, (program.exit n p).isSome = true := ⟨_, lastExits⟩
    obtain ⟨p, bounded, exits⟩ := Nat.find_spec someone
    refine ⟨Nat.find someone, Nat.lt_of_le_of_lt (Nat.find_min' someone lastExits) last, ?_⟩
    refine together.exitTogether (Nat.lt_of_le_of_lt (Nat.find_min' someone lastExits) last)
      (fun k below q inside => ?_) bounded exits
    rw [← Option.not_isSome_iff_eq_none]
    exact fun exits => Nat.find_min someone below ⟨q, inside, exits⟩

/-- Processes stay together exactly if they return after the same call and agree on success. -/
theorem together_iff_exitTogether (program : Program Call Code) (succeeds : Code → Prop) :
    program.Together succeeds ↔ ∃ n < program.calls.length, program.ExitTogether succeeds n := by
  constructor
  · intro together
    exact together.exists_exit
  · rintro ⟨n, within, exits⟩
    exact exits.together within

end Program

end HandsOn.Mpi.Rounds
