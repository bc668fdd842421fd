import Mathlib.Data.List.Basic
import Mathlib.Data.Nat.Notation

/-!
# Transition systems and their finite runs

A `System` relates a state and a chosen action to the next state. `Steps` retains
every transition it takes, so that a property of a whole run can be stated by
counting transitions. Where the successor is computed, `System.computed` makes a
system of it and `exec` runs a list of actions.
-/

namespace HandsOn.Semantics

universe u v w x

/-- A transition system with labelled steps. -/
structure System (State : Type u) (Action : Type v) where
  Initial : State → Prop
  Step : State → Action → State → Prop

/-- The system of a computed step: `none` where the action is not enabled. -/
def System.computed {State : Type u} {Action : Type v} (Initial : State → Prop)
    (step : State → Action → Option State) : System State Action where
  Initial := Initial
  Step state action next := step state action = some next

/-- One transition taken by a run. -/
structure Transition (State : Type u) (Action : Type v) where
  before : State
  action : Action
  after : State

namespace System

variable {State : Type u} {Action : Type v}

/-- Zero or more steps from `start`, with the transitions taken in order. -/
inductive Steps (system : System State Action) (start : State) :
    List (Transition State Action) → State → Prop where
  | refl : Steps system start [] start
  | step {trace current action next} (prior : Steps system start trace current)
      (taken : system.Step current action next) :
      Steps system start (trace ++ [⟨current, action, next⟩]) next

/-- A state some run from an initial state arrives in. -/
def Reachable (system : System State Action) (state : State) : Prop :=
  ∃ start trace, system.Initial start ∧ system.Steps start trace state

/-- In every reachable state that is `Unfinished`, some step can be taken. -/
def NeverStuck (system : System State Action) (Unfinished : State → Prop) : Prop :=
  ∀ state, system.Reachable state → Unfinished state → ∃ action next,
    system.Step state action next

variable {system : System State Action}

/-- Two runs that meet compose. -/
theorem Steps.trans {start middle finish : State}
    {first second : List (Transition State Action)}
    (prior : system.Steps start first middle)
    (suffix : system.Steps middle second finish) :
    system.Steps start (first ++ second) finish := by
  induction suffix with
  | refl => simpa using prior
  | step _ taken ih => simpa [List.append_assoc] using Steps.step ih taken

/-- A single enabled step is a run. -/
theorem Steps.single {start next : State} {action : Action}
    (taken : system.Step start action next) :
    system.Steps start [⟨start, action, next⟩] next := by
  simpa using Steps.step (.refl) taken

/-- Invariant rule for a suffix: what one step preserves, a run preserves. -/
theorem Steps.preserves {P : State → Prop}
    (preserved : ∀ {state action next}, P state →
      system.Step state action next → P next)
    {start finish : State} {trace : List (Transition State Action)}
    (steps : system.Steps start trace finish) (holds : P start) : P finish := by
  induction steps with
  | refl => exact holds
  | step _ taken ih => exact preserved ih taken

/-- Invariant rule for a property of the run so far and its last state. -/
theorem Steps.accumulates {start : State}
    {P : List (Transition State Action) → State → Prop} (holds : P [] start)
    (preserved : ∀ {trace state action next}, system.Steps start trace state →
      P trace state → system.Step state action next →
      P (trace ++ [⟨state, action, next⟩]) next)
    {trace : List (Transition State Action)} {finish : State}
    (steps : system.Steps start trace finish) : P trace finish := by
  induction steps with
  | refl => exact holds
  | step prior taken ih => exact preserved prior ih taken

/-- Every initial state is reachable. -/
theorem Reachable.initial {state : State} (valid : system.Initial state) :
    system.Reachable state :=
  ⟨state, [], valid, .refl⟩

/-- A run leads from reachable states to reachable states. -/
theorem Reachable.steps {start finish : State} {trace : List (Transition State Action)}
    (reachable : system.Reachable start) (steps : system.Steps start trace finish) :
    system.Reachable finish := by
  obtain ⟨origin, before, valid, prior⟩ := reachable
  exact ⟨origin, before ++ trace, valid, prior.trans steps⟩

/-- Invariant rule for reachable states. -/
theorem Reachable.invariant {P : State → Prop}
    (initial : ∀ {state}, system.Initial state → P state)
    (preserved : ∀ {state action next}, P state →
      system.Step state action next → P next)
    {state : State} (reachable : system.Reachable state) : P state := by
  obtain ⟨start, trace, valid, steps⟩ := reachable
  exact steps.preserves preserved (initial valid)

/-! ### Running a list of actions -/

/-- Take the listed actions in order, keeping the transitions; `none` if one of
them is not enabled. -/
def exec (step : State → Action → Option State) (state : State) :
    List Action → Option (List (Transition State Action) × State)
  | [] => some ([], state)
  | action :: rest =>
      (step state action).bind fun next =>
        (exec step next rest).map fun run => (⟨state, action, next⟩ :: run.1, run.2)

/-- A computed run is a run. -/
theorem exec_steps {Initial : State → Prop} {step : State → Action → Option State}
    {actions : List Action} {start finish : State} {trace : List (Transition State Action)}
    (ran : exec step start actions = some (trace, finish)) :
    (computed Initial step).Steps start trace finish := by
  induction actions generalizing start trace with
  | nil =>
      obtain ⟨rfl, rfl⟩ : [] = trace ∧ start = finish := by simpa [exec] using ran
      exact .refl
  | cons action rest ih =>
      obtain ⟨next, taken, later⟩ := Option.bind_eq_some_iff.mp ran
      obtain ⟨⟨trace', finish'⟩, ran', same⟩ := Option.map_eq_some_iff.mp later
      obtain ⟨rfl, rfl⟩ := Prod.mk.inj same
      exact (Steps.single taken).trans (ih ran')

/-- A state computed from an initial state by a list of actions is reachable. -/
theorem reachable_of_exec {Initial : State → Prop} {step : State → Action → Option State}
    {actions : List Action} {start finish : State} {trace : List (Transition State Action)}
    (valid : Initial start) (ran : exec step start actions = some (trace, finish)) :
    (computed Initial step).Reachable finish :=
  ⟨start, trace, valid, exec_steps ran⟩

/-! ### Simulation -/

/-- `system` is simulated by `spec` along `Related`: every step from a state
related to a reachable state of `spec` is matched by zero or more steps of `spec`. -/
structure Simulation {SpecState : Type w} {SpecAction : Type x}
    (system : System State Action) (spec : System SpecState SpecAction)
    (Related : State → SpecState → Prop) : Prop where
  initial : ∀ {state}, system.Initial state →
    ∃ image, spec.Initial image ∧ Related state image
  step : ∀ {state image action next}, spec.Reachable image → Related state image →
    system.Step state action next →
    ∃ trace image', spec.Steps image trace image' ∧ Related next image'

/-- Reachable states are related to reachable states of the simulating system. -/
theorem Simulation.reachable {SpecState : Type w} {SpecAction : Type x}
    {spec : System SpecState SpecAction} {Related : State → SpecState → Prop}
    (simulation : Simulation system spec Related) {state : State}
    (reachable : system.Reachable state) :
    ∃ image, spec.Reachable image ∧ Related state image := by
  refine reachable.invariant (P := fun state => ∃ image, spec.Reachable image ∧
    Related state image) (fun valid => ?_) (fun holds taken => ?_)
  · obtain ⟨image, initial, related⟩ := simulation.initial valid
    exact ⟨image, .initial initial, related⟩
  · obtain ⟨image, here, related⟩ := holds
    obtain ⟨trace, image', steps, related'⟩ := simulation.step here related taken
    exact ⟨image', here.steps steps, related'⟩

end System

end HandsOn.Semantics
