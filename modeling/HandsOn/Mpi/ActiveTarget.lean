import Mathlib.Data.List.FinRange
import HandsOn.Mpi.Exchange

/-!
# Steps of active target communication

Each process repeats: compute on its own window; open the window to the processes that may
put (`MPI_Win_post`); open an access epoch (`MPI_Win_start`); put single values that depend
on what it has computed; settle its own variables; complete the access epoch
(`MPI_Win_complete`); wait for those that may have put (`MPI_Win_wait`). The value of a put
may be read from its origin until `MPI_Win_complete` returns, and may be stored at its target
from `MPI_Win_post` there until `MPI_Win_wait` returns. Nothing else holds processes back.

`sync` takes the same steps on all processes at once. If no two puts of a step meet in one
slot, every interleaving agrees with it.
-/

namespace HandsOn.Mpi.ActiveTarget

open HandsOn.Semantics

universe u v w

/-- What the processes do in each step. `accessGroup` is the group of `MPI_Win_start`,
`exposureGroup` that of `MPI_Win_post`; `origin` is the value in the origin buffer. -/
structure Program (size : ℕ) (Private : Type u) (Slot : Type v) (Val : Type w) where
  steps : ℕ
  accessGroup : Fin size → List (Fin size)
  exposureGroup : Fin size → List (Fin size)
  start : Fin size → Private
  window : Fin size → Slot → Val
  compute : Fin size → Private → (Slot → Val) → Private × (Slot → Val)
  puts : Fin size → Private → List (Fin size × Slot)
  origin : Private → Val
  settle : Fin size → Private → Private

/-- The next call of a process in its step. -/
inductive Stage where
  | compute
  | post
  | start
  | put
  | complete
  | wait
deriving DecidableEq

namespace Stage

def index : Stage → ℕ
  | compute => 0
  | post => 1
  | start => 2
  | put => 3
  | complete => 4
  | wait => 5

def next : Stage → Stage
  | compute => post
  | post => start
  | start => put
  | put => complete
  | complete => wait
  | wait => compute

end Stage

/-- Each process's step, next call, variables and window; and for each step the puts of each
process, how many of them it has issued, and their progress. -/
structure State (size : ℕ) (Private : Type u) (Slot : Type v) (Val : Type w) where
  step : Fin size → ℕ
  stage : Fin size → Stage
  priv : Fin size → Private
  window : Fin size → Slot → Val
  sent : ℕ → Fin size → List (Fin size × Slot)
  issued : ℕ → Fin size → ℕ
  status : ℕ → Fin size → ℕ → Status Val

inductive Action (size : ℕ) where
  | compute (p : Fin size)
  | post (p : Fin size)
  | start (p : Fin size)
  | put (p : Fin size)
  | settle (p : Fin size)
  | read (p : Fin size) (index : ℕ)
  | store (step : ℕ) (p : Fin size) (index : ℕ)
  | complete (p : Fin size)
  | wait (p : Fin size)

variable {size : ℕ} {Private : Type u} {Slot : Type v} {Val : Type w}

namespace State

variable (state : State size Private Slot Val)

/-- The calls that a process has returned from. -/
def clock (p : Fin size) : ℕ := 6 * state.step p + (state.stage p).index

/-- A process has returned from a call of a step. -/
def Passed (p : Fin size) (step : ℕ) (stage : Stage) : Prop :=
  6 * step + stage.index < state.clock p

instance (p : Fin size) (step : ℕ) (stage : Stage) : Decidable (state.Passed p step stage) :=
  inferInstanceAs (Decidable (_ < _))

/-- A process returns from its call. -/
def move (p : Fin size) : State size Private Slot Val :=
  { state with
    step := Function.update state.step p
      (if state.stage p = .wait then state.step p + 1 else state.step p)
    stage := Function.update state.stage p (state.stage p).next }

def setPriv (p : Fin size) (priv : Private) : State size Private Slot Val :=
  { state with priv := Function.update state.priv p priv }

def setWindow (p : Fin size) (window : Slot → Val) : State size Private Slot Val :=
  { state with window := Function.update state.window p window }

def setSent (step : ℕ) (p : Fin size) (puts : List (Fin size × Slot)) :
    State size Private Slot Val :=
  { state with
    sent := fun step' q => if step' = step ∧ q = p then puts else state.sent step' q }

/-- One more put has been issued. -/
def issue (step : ℕ) (p : Fin size) : State size Private Slot Val :=
  { state with
    issued := fun step' q =>
      if step' = step ∧ q = p then state.issued step' q + 1 else state.issued step' q }

def setStatus (step : ℕ) (p : Fin size) (index : ℕ) (status : Status Val) :
    State size Private Slot Val :=
  { state with
    status := fun step' q index' =>
      if step' = step ∧ q = p ∧ index' = index then status else state.status step' q index' }

/-- The values of the puts that `p` has issued in its step have been read. -/
def Read (p : Fin size) : Prop :=
  ∀ index < (state.sent (state.step p) p).length,
    (state.status (state.step p) p index).isUnread = false

/-- The puts of `q` to `p` in the step of `p` have been stored. -/
def Stored (p q : Fin size) : Prop :=
  ∀ index < (state.sent (state.step p) q).length,
    ((state.sent (state.step p) q)[index]?.map Prod.fst) = some p →
      (state.status (state.step p) q index).isStored = true

instance (p : Fin size) : Decidable (state.Read p) :=
  inferInstanceAs (Decidable (∀ index < _, _ = false))

instance (p q : Fin size) : Decidable (state.Stored p q) :=
  inferInstanceAs (Decidable (∀ index < _, _ → _ = true))

end State

namespace Program

variable (program : Program size Private Slot Val)

/-- The processes before their first step. -/
def initial : State size Private Slot Val where
  step _ := 0
  stage _ := .compute
  priv := program.start
  window := program.window
  sent _ _ := []
  issued _ _ := 0
  status _ _ _ := .unread

/-- A process starts access epochs to another. -/
def accesses (p q : Fin size) : Bool :=
  (program.accessGroup p).contains q

variable {program} in
@[simp] theorem accesses_iff {p q : Fin size} :
    program.accesses p q = true ↔ q ∈ program.accessGroup p :=
  List.contains_iff_mem

/-- `MPI_Win_wait` of `p` need not wait for `q`. -/
def awaited (state : State size Private Slot Val) (p q : Fin size) : Bool :=
  program.accesses q p && decide (state.Passed q (state.step p) .complete ∧ state.Stored p q)

variable {program} in
@[simp] theorem awaited_iff {state : State size Private Slot Val} {p q : Fin size} :
    program.awaited state p q = true ↔ p ∈ program.accessGroup q ∧
      state.Passed q (state.step p) .complete ∧ state.Stored p q := by
  rw [awaited, Bool.and_eq_true, accesses_iff, decide_eq_true_iff]

variable [DecidableEq Slot]

/-- One step; `none` where it is not enabled. -/
def step (state : State size Private Slot Val) :
    Action size → Option (State size Private Slot Val)
  | .compute p =>
      if state.stage p = .compute ∧ state.step p < program.steps then
        let computed := program.compute p (state.priv p) (state.window p)
        some (((state.move p).setPriv p computed.1).setWindow p computed.2)
      else none
  | .post p => if state.stage p = .post then some (state.move p) else none
  | .start p =>
      if state.stage p = .start then
        some ((state.move p).setSent (state.step p) p (program.puts p (state.priv p)))
      else none
  | .put p =>
      ((state.sent (state.step p) p)[state.issued (state.step p) p]?).bind fun put =>
        if state.stage p = .put ∧ program.accesses p put.1 = true then
          some (state.issue (state.step p) p)
        else none
  | .settle p =>
      if state.stage p = .put ∧
          state.issued (state.step p) p = (state.sent (state.step p) p).length then
        some ((state.move p).setPriv p (program.settle p (state.priv p)))
      else none
  | .read p index =>
      if index < state.issued (state.step p) p ∧
          (state.status (state.step p) p index).isUnread = true then
        some (state.setStatus (state.step p) p index (.flying (program.origin (state.priv p))))
      else none
  | .store step q index =>
      ((state.sent step q)[index]?).bind fun put =>
        match state.status step q index with
        | .flying value =>
            if state.step put.1 = step ∧ state.Passed put.1 step .post then
              some ((state.setWindow put.1
                (Function.update (state.window put.1) put.2 value)).setStatus step q index .stored)
            else none
        | _ => none
  | .complete p =>
      if state.stage p = .complete ∧ state.Read p then some (state.move p) else none
  | .wait p =>
      if state.stage p = .wait ∧ (program.exposureGroup p).all (program.awaited state p) = true then
        some (state.move p)
      else none

/-- The system of the processes. -/
def system : System (State size Private Slot Val) (Action size) :=
  System.computed (· = program.initial) program.step

/-! ### What a step does -/

/-- The steps. -/
inductive Stepped (program : Program size Private Slot Val) (state : State size Private Slot Val) :
    Action size → State size Private Slot Val → Prop where
  | compute {p : Fin size} (here : state.stage p = .compute) (more : state.step p < program.steps) :
      Stepped program state (.compute p)
        (((state.move p).setPriv p
          (program.compute p (state.priv p) (state.window p)).1).setWindow p
            (program.compute p (state.priv p) (state.window p)).2)
  | post {p : Fin size} (here : state.stage p = .post) :
      Stepped program state (.post p) (state.move p)
  | start {p : Fin size} (here : state.stage p = .start) :
      Stepped program state (.start p)
        ((state.move p).setSent (state.step p) p (program.puts p (state.priv p)))
  | put {p : Fin size} {put : Fin size × Slot} (here : state.stage p = .put)
      (listed : (state.sent (state.step p) p)[state.issued (state.step p) p]? = some put)
      (opened : put.1 ∈ program.accessGroup p) :
      Stepped program state (.put p) (state.issue (state.step p) p)
  | settle {p : Fin size} (here : state.stage p = .put)
      (all : state.issued (state.step p) p = (state.sent (state.step p) p).length) :
      Stepped program state (.settle p)
        ((state.move p).setPriv p (program.settle p (state.priv p)))
  | read {p : Fin size} {index : ℕ} (issued : index < state.issued (state.step p) p)
      (unread : state.status (state.step p) p index = .unread) :
      Stepped program state (.read p index)
        (state.setStatus (state.step p) p index (.flying (program.origin (state.priv p))))
  | store {q : Fin size} {index : ℕ} {put : Fin size × Slot} {value : Val}
      (listed : (state.sent (state.step put.1) q)[index]? = some put)
      (flying : state.status (state.step put.1) q index = .flying value)
      (posted : state.Passed put.1 (state.step put.1) .post) :
      Stepped program state (.store (state.step put.1) q index)
        ((state.setWindow put.1
          (Function.update (state.window put.1) put.2 value)).setStatus (state.step put.1) q index
            .stored)
  | complete {p : Fin size} (here : state.stage p = .complete) (read : state.Read p) :
      Stepped program state (.complete p) (state.move p)
  | wait {p : Fin size} (here : state.stage p = .wait)
      (completed : ∀ q ∈ program.exposureGroup p, p ∈ program.accessGroup q ∧
        state.Passed q (state.step p) .complete ∧ state.Stored p q) :
      Stepped program state (.wait p) (state.move p)

variable {program} {state next : State size Private Slot Val}

theorem stepped_iff {action : Action size} :
    program.step state action = some next ↔ program.Stepped state action next := by
  constructor
  · intro taken
    cases action with
    | compute p =>
        obtain ⟨⟨here, more⟩, same⟩ := Option.ite_none_right_eq_some.mp taken
        cases same
        exact .compute here more
    | post p =>
        obtain ⟨here, same⟩ := Option.ite_none_right_eq_some.mp taken
        cases same
        exact .post here
    | start p =>
        obtain ⟨here, same⟩ := Option.ite_none_right_eq_some.mp taken
        cases same
        exact .start here
    | put p =>
        obtain ⟨put, listed, taken⟩ := Option.bind_eq_some_iff.mp taken
        obtain ⟨⟨here, opened⟩, same⟩ := Option.ite_none_right_eq_some.mp taken
        cases same
        exact .put here listed (accesses_iff.mp opened)
    | settle p =>
        obtain ⟨⟨here, all⟩, same⟩ := Option.ite_none_right_eq_some.mp taken
        cases same
        exact .settle here all
    | read p index =>
        obtain ⟨⟨issued, unread⟩, same⟩ := Option.ite_none_right_eq_some.mp taken
        cases same
        exact .read issued (Status.isUnread_eq_true.mp unread)
    | store step q index =>
        obtain ⟨put, listed, taken⟩ := Option.bind_eq_some_iff.mp taken
        split at taken
        · rename_i flying
          obtain ⟨⟨rfl, posted⟩, same⟩ := Option.ite_none_right_eq_some.mp taken
          cases same
          exact .store listed flying posted
        · cases taken
    | complete p =>
        obtain ⟨⟨here, read⟩, same⟩ := Option.ite_none_right_eq_some.mp taken
        cases same
        exact .complete here read
    | wait p =>
        obtain ⟨⟨here, completed⟩, same⟩ := Option.ite_none_right_eq_some.mp taken
        cases same
        exact .wait here fun q member => awaited_iff.mp (List.all_eq_true.mp completed q member)
  · intro stepped
    cases stepped with
    | compute here more => exact if_pos ⟨here, more⟩
    | post here => exact if_pos here
    | start here => exact if_pos here
    | put here listed opened =>
        exact Option.bind_eq_some_iff.mpr
          ⟨_, listed, if_pos ⟨here, accesses_iff.mpr opened⟩⟩
    | settle here all => exact if_pos ⟨here, all⟩
    | read issued unread => exact if_pos ⟨issued, Status.isUnread_eq_true.mpr unread⟩
    | store listed flying posted =>
        refine Option.bind_eq_some_iff.mpr ⟨_, listed, ?_⟩
        rw [flying]
        exact if_pos ⟨rfl, posted⟩
    | complete here read => exact if_pos ⟨here, read⟩
    | wait here completed =>
        exact if_pos ⟨here, List.all_eq_true.mpr fun q member =>
          awaited_iff.mpr (completed q member)⟩

end Program

/-! ### Clocks -/

namespace State

variable (state : State size Private Slot Val) (p q : Fin size)

theorem index_lt (stage : Stage) : stage.index < 6 := by
  cases stage <;> decide

/-- A return moves one clock by one call. -/
theorem clock_move : (state.move p).clock q = state.clock q + if q = p then 1 else 0 := by
  by_cases own : q = p
  · subst own
    simp only [clock, move, Function.update_self]
    cases here : state.stage q <;> simp [Stage.index, Stage.next]
    omega
  · simp only [clock, move, Function.update_of_ne own, if_neg own, Nat.add_zero]

@[simp] theorem clock_setSent (step : ℕ) (puts : List (Fin size × Slot)) :
    (state.setSent step p puts).clock = state.clock := rfl

@[simp] theorem clock_issue (step : ℕ) : (state.issue step p).clock = state.clock := rfl

theorem status_setStatus (step index t index' : ℕ) (status : Status Val) :
    (state.setStatus step p index status).status t q index' =
      if t = step ∧ q = p ∧ index' = index then status else state.status t q index' :=
  rfl

variable {state p q}

theorem clock_of_stage {stage : Stage} (here : state.stage p = stage) :
    state.clock p = 6 * state.step p + stage.index := by
  rw [clock, here]

theorem stage_move : (state.move p).stage p = (state.stage p).next :=
  Function.update_self _ _ _

/-- A return from any call but the last stays in the step. -/
theorem step_move (more : state.stage p ≠ .wait) : (state.move p).step p = state.step p := by
  simp only [move, Function.update_self, if_neg more]

theorem step_move_wait (last : state.stage p = .wait) :
    (state.move p).step p = state.step p + 1 := by
  simp only [move, Function.update_self, if_pos last]

/-- The clock says where a process is. -/
theorem stage_of_clock {t : ℕ} {stage : Stage} (clock : state.clock p = 6 * t + stage.index) :
    state.step p = t ∧ state.stage p = stage := by
  have inside := index_lt (state.stage p)
  have inside' := index_lt stage
  rw [State.clock] at clock
  have index : (state.stage p).index = stage.index := by omega
  refine ⟨by omega, ?_⟩
  cases here : state.stage p <;> cases stage <;> rw [here] at index <;> first | rfl | cases index

end State

end HandsOn.Mpi.ActiveTarget
