import HandsOn.Ior.Pattern
import HandsOn.Semantics.Transition

/-!
# One phase of a test

In a phase all tasks call `WriteOrRead` on the files, each in its own time. A step is one call
of `write` or `read` by some task, which may move less than was asked for, or the reduction
after the loops when stonewalling is worn out.
-/

namespace HandsOn.Ior

open Mpi Posix Semantics

/-- What `WriteOrRead` is called for. -/
inductive Access where
  | write
  | read
  | writeCheck
  | readCheck
deriving DecidableEq

/-- A call of `WriteOrRead` by all tasks: the stream of `random` after the seed of the last
write, and the globals `rankOffset` and `stoneWallingWearOutIterations` of each task. -/
structure Phase where
  test : Test
  access : Access
  random : ℕ → ℕ
  rankOffset : ℕ → ℕ
  iterations : ℕ → ℕ

/-- The variables of a task: `moved` are the bytes of the current transfer up to `ptr`. -/
structure Task where
  pairCnt : ℕ
  moved : List UInt8
  xferRetries : ℕ
  errors : Int32
  hitStonewall : Bool

/-- The files, the tasks, and what ends the phase: the result of the reduction, an abort. -/
structure State where
  contents : ℕ → List UInt8
  task : ℕ → Task
  pairsAccessed : Option ℕ
  aborted : Option String

/-- A task before its first transfer. -/
def Task.initial : Task := ⟨0, [], 0, 0, false⟩

/-- The tasks enter the phase. -/
def State.initial (contents : ℕ → List UInt8) : State := ⟨contents, fun _ => .initial, none, none⟩

/-- A call by a task that returned `rc`, `none` for -1, with the deadline passed at the test
of it or not; or the reduction. -/
inductive Action where
  | xfer (rank : ℕ) (rc : Option ℕ) (expired : Bool)
  | allreduce

/-- The number of retries in `POSIX_Xfer`. -/
def maxRetry : ℕ := 10000

/-- The result of a call as `POSIX_Xfer` takes it. -/
def posixXfer (test : Param) (access : Access) (remaining xferRetries : ℕ) :
    Option ℕ → Except String ℕ
  | none => .error (if access = .write then "write() failed" else "read() failed")
  | some rc =>
      if access ≠ .write ∧ rc = 0 then .error "read() returned EOF prematurely"
      else if rc < remaining ∧ test.singleXferAttempt then .error "MPI_Abort"
      else if rc < remaining ∧ maxRetry < xferRetries then .error "too many retries -- aborting"
      else .ok rc

/-- What `write` or `read` of `remaining` bytes at a position can return. -/
def Returns (access : Access) (content : List UInt8) (position remaining : ℕ) :
    Option ℕ → Prop
  | none => True
  | some rc =>
      rc ≤ remaining ∧ (access ≠ .write →
        rc ≤ content.length - position ∧ (rc = 0 → content.length ≤ position))

instance (access : Access) (content : List UInt8) (position remaining : ℕ) (rc : Option ℕ) :
    Decidable (Returns access content position remaining rc) :=
  match rc with
  | none => inferInstanceAs (Decidable True)
  | some _ => inferInstanceAs (Decidable (_ ∧ _))

namespace Phase

variable (layout : Native UInt64 8) (phase : Phase)

/-- `pretendRank` -/
def pretendRank (rank : ℕ) : ℕ := (rank + phase.rankOffset rank) % phase.test.1.numTasks

/-- The number of the file that a task opens. -/
def file (rank : ℕ) : ℕ := phase.test.1.file (phase.pretendRank rank)

/-- The offsets of a task. -/
def offsets (rank : ℕ) : List ℕ :=
  offsetArray phase.test.1 phase.random (phase.pretendRank rank)

/-- What a task writes at an offset, or expects there. -/
def buffer (rank offset : ℕ) : List UInt8 :=
  transferBuffer layout phase.test.1 (phase.pretendRank rank) offset

/-- A task has accesses to make in its loop. -/
def InLoop (state : State) (rank : ℕ) : Prop :=
  (state.task rank).pairCnt < (phase.offsets rank).length ∧
    (state.task rank).hitStonewall = false

/-- A task has accesses to make, in its loop or after the reduction. -/
def Running (state : State) (rank : ℕ) : Prop :=
  match state.pairsAccessed with
  | none => phase.InLoop state rank
  | some pairs => (state.task rank).pairCnt < pairs

instance (state : State) (rank : ℕ) : Decidable (phase.InLoop state rank) :=
  inferInstanceAs (Decidable (_ ∧ _))

instance (state : State) (rank : ℕ) : Decidable (phase.Running state rank) :=
  match reduced : state.pairsAccessed with
  | none => decidable_of_iff (phase.InLoop state rank) (by rw [Running, reduced])
  | some pairs => decidable_of_iff ((state.task rank).pairCnt < pairs) (by rw [Running, reduced])

/-- The rest of `WriteOrReadSingle` and of the loop, after a whole transfer. -/
def completed (state : State) (rank offset : ℕ) (moved : List UInt8) (expired : Bool) : Task :=
  let task := state.task rank
  { pairCnt := task.pairCnt + 1
    moved := []
    xferRetries := 0
    errors :=
      if phase.access = .writeCheck ∨ phase.access = .readCheck then
        task.errors + Int32.ofNat (errorCount layout (phase.buffer layout rank offset) moved
          phase.test.1.transferSize)
      else task.errors
    hitStonewall :=
      if state.pairsAccessed = none then
        (phase.test.1.deadlineForStonewalling ≠ 0 && expired) ||
          (phase.iterations rank ≠ 0 && task.pairCnt + 1 = phase.iterations rank)
      else task.hitStonewall }

@[simp] theorem completed_pairCnt (state : State) (rank offset : ℕ) (moved : List UInt8)
    (expired : Bool) :
    (phase.completed layout state rank offset moved expired).pairCnt =
      (state.task rank).pairCnt + 1 :=
  rfl

@[simp] theorem completed_moved (state : State) (rank offset : ℕ) (moved : List UInt8)
    (expired : Bool) : (phase.completed layout state rank offset moved expired).moved = [] :=
  rfl

/-- The bytes that a call moves. -/
def chunk (state : State) (rank offset count : ℕ) : List UInt8 :=
  let moved := (state.task rank).moved
  if phase.access = .write then pread (phase.buffer layout rank offset) moved.length count
  else pread (state.contents (phase.file rank)) (offset + moved.length) count

/-- `CompareBuffers` after a call that completes a transfer of a check. -/
def compared (state : State) (rank offset count : ℕ) : Except String ℕ :=
  let moved := (state.task rank).moved ++ phase.chunk layout state rank offset count
  if (phase.access = .writeCheck ∨ phase.access = .readCheck) ∧
      moved.length = phase.test.1.transferSize then
    compareBuffers layout phase.test.1 (phase.buffer layout rank offset) moved
      phase.test.1.transferSize
  else .ok 0

/-- The state after a call that moved `count` bytes. -/
def advance (state : State) (rank offset count : ℕ) (expired : Bool) : State :=
  let task := state.task rank
  let chunk := phase.chunk layout state rank offset count
  let moved := task.moved ++ chunk
  { state with
    contents :=
      if phase.access = .write then
        Function.update state.contents (phase.file rank)
          (pwrite (state.contents (phase.file rank)) (offset + task.moved.length) chunk)
      else state.contents
    task := Function.update state.task rank
      (if moved.length = phase.test.1.transferSize then
        phase.completed layout state rank offset moved expired
      else { task with moved := moved, xferRetries := task.xferRetries + 1 }) }

/-- A step, `none` where it is not possible. Past its offsets a task finds the end marker -1,
where it cannot seek to. -/
def step (state : State) : Action → Option State
  | .xfer rank rc expired =>
      if state.aborted = none ∧ rank < phase.test.1.numTasks ∧ phase.Running state rank then
        match (phase.offsets rank)[(state.task rank).pairCnt]? with
        | none => some { state with aborted := some "lseek64() failed" }
        | some offset =>
            let task := state.task rank
            let remaining := phase.test.1.transferSize - task.moved.length
            if Returns phase.access (state.contents (phase.file rank))
                (offset + task.moved.length) remaining rc then
              match posixXfer phase.test.1 phase.access remaining task.xferRetries rc with
              | .error message => some { state with aborted := some message }
              | .ok count =>
                  match phase.compared layout state rank offset count with
                  | .error message => some { state with aborted := some message }
                  | .ok _ => some (phase.advance layout state rank offset count expired)
            else none
      else none
  | .allreduce =>
      if state.aborted = none ∧ phase.test.1.stoneWallingWearOut = true ∧
          state.pairsAccessed = none ∧
            ∀ rank < phase.test.1.numTasks, ¬ phase.InLoop state rank then
        some { state with
          pairsAccessed := some (((List.range phase.test.1.numTasks).map fun rank =>
            (state.task rank).pairCnt).foldr max 0) }
      else none

/-- The phase as a transition system, on given files. -/
def system (contents : ℕ → List UInt8) : System State Action :=
  .computed (· = .initial contents) (phase.step layout)

/-- All tasks have returned from `WriteOrRead`. -/
def Finished (state : State) : Prop :=
  state.aborted = none ∧ (∀ rank < phase.test.1.numTasks, ¬ phase.Running state rank) ∧
    (phase.test.1.stoneWallingWearOut = true → state.pairsAccessed ≠ none)

variable {layout phase} {state next : State} {action : Action} {contents : ℕ → List UInt8}

/-- What a call of `POSIX_Xfer` that goes on has moved. -/
theorem posixXfer_ok {test : Param} {access : Access} {remaining retries count : ℕ}
    {rc : Option ℕ} (moves : posixXfer test access remaining retries rc = .ok count) :
    rc = some count := by
  cases rc with
  | none => cases moves
  | some rc =>
      simp only [posixXfer] at moves
      split at moves
      · cases moves
      split at moves
      · cases moves
      split at moves
      · cases moves
      · exact congrArg some (Except.ok.inj moves)

/-- `POSIX_Xfer` finds the end of the file only where a call to read moved nothing. -/
theorem posixXfer_eof {test : Param} {access : Access} {remaining retries : ℕ} {rc : Option ℕ}
    (ends : posixXfer test access remaining retries rc =
      .error "read() returned EOF prematurely") : access ≠ .write ∧ rc = some 0 := by
  cases rc with
  | none =>
      simp only [posixXfer] at ends
      split at ends <;> exact absurd (Except.error.inj ends) (by decide)
  | some rc =>
      simp only [posixXfer] at ends
      split at ends
      case isTrue nothing => exact ⟨nothing.1, congrArg some nothing.2⟩
      split at ends
      · exact absurd (Except.error.inj ends) (by decide)
      split at ends
      · exact absurd (Except.error.inj ends) (by decide)
      · cases ends

/-- The messages of `POSIX_Xfer`. -/
theorem posixXfer_error {test : Param} {access : Access} {remaining retries : ℕ} {rc : Option ℕ}
    {message : String} (fails : posixXfer test access remaining retries rc = .error message) :
    message ≠ "lseek64() failed" ∧ message ≠ "data check error, aborting execution" := by
  cases rc with
  | none =>
      simp only [posixXfer] at fails
      split at fails <;> obtain rfl := Except.error.inj fails <;> decide
  | some rc =>
      simp only [posixXfer] at fails
      split at fails
      · obtain rfl := Except.error.inj fails
        decide
      split at fails
      · obtain rfl := Except.error.inj fails
        decide
      split at fails
      · obtain rfl := Except.error.inj fails
        decide
      · cases fails

/-- Only a whole transfer of a check is compared. -/
theorem compared_error {rank offset count : ℕ} {message : String}
    (fails : phase.compared layout state rank offset count = .error message) :
    ((phase.access = .writeCheck ∨ phase.access = .readCheck) ∧
      ((state.task rank).moved ++ phase.chunk layout state rank offset count).length =
        phase.test.1.transferSize) ∧
    errorCount layout (phase.buffer layout rank offset)
      ((state.task rank).moved ++ phase.chunk layout state rank offset count)
      phase.test.1.transferSize ≠ 0 ∧ message = "data check error, aborting execution" := by
  simp only [compared] at fails
  split at fails
  case isTrue whole => exact ⟨whole, compareBuffers_error fails⟩
  case isFalse => cases fails

/-- Why a task aborts: it has no more offsets, or the file ends, or it finds an error in a transfer,
or for another reason. -/
structure Aborts (layout : Native UInt64 8) (phase : Phase) (state : State) (message : String) :
    Prop where
  lseek : message = "lseek64() failed" → ∃ rank < phase.test.1.numTasks,
    phase.Running state rank ∧ (phase.offsets rank).length ≤ (state.task rank).pairCnt
  eof : message = "read() returned EOF prematurely" → ∃ rank < phase.test.1.numTasks,
    phase.Running state rank ∧ ∃ offset,
      (phase.offsets rank)[(state.task rank).pairCnt]? = some offset ∧
      (state.contents (phase.file rank)).length ≤ offset + (state.task rank).moved.length
  check : message = "data check error, aborting execution" → ∃ rank < phase.test.1.numTasks,
    phase.Running state rank ∧ ∃ offset count,
      (phase.offsets rank)[(state.task rank).pairCnt]? = some offset ∧
      (phase.access = .writeCheck ∨ phase.access = .readCheck) ∧
      ((state.task rank).moved ++ phase.chunk layout state rank offset count).length =
        phase.test.1.transferSize ∧
      errorCount layout (phase.buffer layout rank offset)
        ((state.task rank).moved ++ phase.chunk layout state rank offset count)
        phase.test.1.transferSize ≠ 0

/-- What a step does: it aborts, reduces, or moves bytes of a transfer. -/
theorem step_cases (taken : phase.step layout state action = some next) :
    (∃ message, Aborts layout phase state message ∧ next = { state with aborted := some message }) ∨
    (phase.test.1.stoneWallingWearOut = true ∧ state.pairsAccessed = none ∧
      (∀ rank < phase.test.1.numTasks, ¬ phase.InLoop state rank) ∧
      next = { state with
        pairsAccessed := some (((List.range phase.test.1.numTasks).map fun rank =>
          (state.task rank).pairCnt).foldr max 0) }) ∨
    ∃ rank offset count expired, rank < phase.test.1.numTasks ∧ phase.Running state rank ∧
      (phase.offsets rank)[(state.task rank).pairCnt]? = some offset ∧
      Returns phase.access (state.contents (phase.file rank))
        (offset + (state.task rank).moved.length)
        (phase.test.1.transferSize - (state.task rank).moved.length) (some count) ∧
      next = phase.advance layout state rank offset count expired := by
  cases action with
  | allreduce =>
      obtain ⟨⟨_, wearOut, unreduced, done⟩, same⟩ := Option.ite_none_right_eq_some.mp taken
      exact .inr (.inl ⟨wearOut, unreduced, done, (Option.some.inj same).symm⟩)
  | xfer rank rc expired =>
      obtain ⟨⟨_, task, running⟩, called⟩ := Option.ite_none_right_eq_some.mp taken
      cases listed : (phase.offsets rank)[(state.task rank).pairCnt]? with
      | none =>
          rw [listed] at called
          refine .inl ⟨_, ⟨fun _ => ⟨rank, task, running, ?_⟩, fun other => ?_, fun other => ?_⟩,
            (Option.some.inj called).symm⟩
          · exact List.getElem?_eq_none_iff.mp listed
          · exact absurd other (by decide)
          · exact absurd other (by decide)
      | some offset =>
          rw [listed] at called
          obtain ⟨returns, moves⟩ := Option.ite_none_right_eq_some.mp called
          cases result : posixXfer phase.test.1 phase.access
              (phase.test.1.transferSize - (state.task rank).moved.length)
              (state.task rank).xferRetries rc with
          | error message =>
              rw [result] at moves
              refine .inl ⟨_, ⟨fun same => ?_, fun same => ?_, fun same => ?_⟩,
                (Option.some.inj moves).symm⟩
              · exact absurd same (posixXfer_error result).1
              · obtain ⟨reading, rfl⟩ := posixXfer_eof (same ▸ result)
                exact ⟨rank, task, running, offset, listed, (returns.2 reading).2 rfl⟩
              · exact absurd same (posixXfer_error result).2
          | ok count =>
              rw [result] at moves
              rw [posixXfer_ok result] at returns
              cases found : phase.compared layout state rank offset count with
              | error message =>
                  simp only [found] at moves
                  obtain ⟨⟨checks, whole⟩, different⟩ := compared_error found
                  refine .inl ⟨_, ⟨fun same => ?_, fun same => ?_, fun _ => ?_⟩,
                    (Option.some.inj moves).symm⟩
                  · exact absurd (same.symm.trans different.2) (by decide)
                  · exact absurd (same.symm.trans different.2) (by decide)
                  · exact ⟨rank, task, running, offset, count, listed, checks, whole, different.1⟩
              | ok errors =>
                  simp only [found] at moves
                  exact .inr (.inr ⟨rank, offset, count, expired, task, running, listed, returns,
                    (Option.some.inj moves).symm⟩)

end Phase

end HandsOn.Ior
