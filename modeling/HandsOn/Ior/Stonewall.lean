import HandsOn.Ior.WriteCheck
import Mathlib.Data.List.MinMax

/-!
# Stonewalling that is worn out

With a deadline the tasks stop after different numbers of transfers. With the option to wear it
out they go on until all have made as many as the task that made the most, so that each can
check any other.
-/

namespace HandsOn.Ior

open Mpi Posix Semantics

namespace Phase

variable {layout : Native UInt64 8} {phase : Phase} {state next : State} {action : Action}
  {contents files : ℕ → List UInt8} {rank offset count : ℕ} {expired : Bool}

/-- The tasks catch up with the one that was first. -/
structure CatchingUp (phase : Phase) (state : State) : Prop where
  pairCnt_le : ∀ rank, (state.task rank).pairCnt ≤ (phase.offsets rank).length
  begun : ∀ rank, (state.task rank).hitStonewall = true → 0 < (state.task rank).pairCnt
  reduced : ∀ pairs, state.pairsAccessed = some pairs → ∀ rank < phase.test.1.numTasks,
    (state.task rank).pairCnt ≤ pairs ∧ ((phase.offsets rank).length = 0 ∨ 0 < pairs)

theorem catchingUp_initial (contents : ℕ → List UInt8) : CatchingUp phase (.initial contents) where
  pairCnt_le _ := Nat.zero_le _
  begun _ hit := by cases hit
  reduced _ reduced := by cases reduced

/-- What a call does to the number of transfers of the acting task. -/
theorem advance_pairCnt (layout : Native UInt64 8) (phase : Phase) (state : State)
    (rank offset count : ℕ) (expired : Bool) :
    ((phase.advance layout state rank offset count expired).task rank).pairCnt =
        (state.task rank).pairCnt ∧
      ((phase.advance layout state rank offset count expired).task rank).hitStonewall =
        (state.task rank).hitStonewall ∨
    ((phase.advance layout state rank offset count expired).task rank).pairCnt =
        (state.task rank).pairCnt + 1 := by
  rw [advance_task_self]
  split
  · exact .inr rfl
  · exact .inl ⟨rfl, rfl⟩

/-- The step of a task that is running. -/
theorem CatchingUp.advance (catching : CatchingUp phase state)
    (running : phase.Running state rank)
    (listed : (phase.offsets rank)[(state.task rank).pairCnt]? = some offset) :
    CatchingUp phase (phase.advance layout state rank offset count expired) := by
  obtain ⟨below, _⟩ := List.getElem?_eq_some_iff.mp listed
  have moved := advance_pairCnt layout phase state rank offset count expired
  refine ⟨fun other => ?_, fun other hit => ?_, fun pairs reduced other task => ?_⟩
  · by_cases same : other = rank
    · subst same
      have := catching.pairCnt_le other
      omega
    · rw [advance_task_of_ne same]
      exact catching.pairCnt_le other
  · by_cases same : other = rank
    · subst same
      rcases moved with ⟨kept, hit'⟩ | more
      · rw [kept]
        exact catching.begun other (hit' ▸ hit)
      · omega
    · rw [advance_task_of_ne same] at hit ⊢
      exact catching.begun other hit
  · have held := catching.reduced pairs reduced other task
    refine ⟨?_, held.2⟩
    by_cases same : other = rank
    · subst same
      have reduced' : state.pairsAccessed = some pairs := reduced
      rw [Running, reduced'] at running
      dsimp only at running
      omega
    · rw [advance_task_of_ne same]
      exact held.1

theorem CatchingUp.step (catching : CatchingUp phase state)
    (taken : phase.step layout state action = some next) : CatchingUp phase next := by
  obtain ⟨_, _, rfl⟩ | ⟨_, unreduced, idle, rfl⟩ |
    ⟨rank, offset, count, expired, _, running, listed, _, rfl⟩ := step_cases taken
  · exact ⟨catching.pairCnt_le, catching.begun, catching.reduced⟩
  · refine ⟨catching.pairCnt_le, catching.begun, fun pairs reduced rank task => ?_⟩
    obtain rfl := Option.some.inj reduced
    have most : (state.task rank).pairCnt ≤ ((List.range phase.test.1.numTasks).map fun rank =>
        (state.task rank).pairCnt).foldr max 0 :=
      List.le_max_of_le (List.mem_map.mpr ⟨rank, List.mem_range.mpr task, rfl⟩) le_rfl
    refine ⟨most, ?_⟩
    -- A task leaves its loop without offsets or after a transfer.
    cases hit : (state.task rank).hitStonewall with
    | true => exact .inr ((catching.begun rank hit).trans_le most)
    | false =>
        have left := idle rank task
        have fewer := Nat.not_lt.mp fun more => left ⟨more, hit⟩
        omega
  · exact catching.advance running listed

/-- The tasks that return from a phase have all made as many transfers, which none lacks. -/
theorem CatchingUp.even (catching : CatchingUp phase state)
    (wearOut : phase.test.1.stoneWallingWearOut = true) (finished : phase.Finished state) :
    ∃ pairs, state.pairsAccessed = some pairs ∧ ∀ rank < phase.test.1.numTasks,
      (state.task rank).pairCnt = pairs ∧ pairs ≤ (phase.offsets rank).length ∧
        ((phase.offsets rank).length = 0 ∨ 0 < pairs) := by
  obtain ⟨pairs, reduced⟩ := Option.ne_none_iff_exists'.mp (finished.2.2 wearOut)
  refine ⟨pairs, reduced, fun rank task => ?_⟩
  have idle := finished.2.1 rank task
  rw [Running, reduced] at idle
  obtain ⟨most, some'⟩ := catching.reduced pairs reduced rank task
  have all : (state.task rank).pairCnt = pairs := Nat.le_antisymm most (Nat.not_lt.mp idle)
  exact ⟨all, all ▸ catching.pairCnt_le rank, some'⟩

/-! ### A check of as many transfers -/

/-- No task makes more transfers than `pairs`. -/
structure Within (phase : Phase) (pairs : ℕ) (state : State) : Prop where
  pairCnt_le : ∀ rank, (state.task rank).pairCnt ≤ pairs
  looping : state.pairsAccessed = none → ∀ rank < phase.test.1.numTasks,
    phase.InLoop state rank → (state.task rank).pairCnt < pairs
  reduced : ∀ most, state.pairsAccessed = some most → most ≤ pairs

variable {pairs : ℕ}

theorem within_initial (files : ℕ → List UInt8)
    (some' : ∀ rank < phase.test.1.numTasks, (phase.offsets rank).length = 0 ∨ 0 < pairs) :
    Within phase pairs (.initial files) where
  pairCnt_le _ := Nat.zero_le _
  looping _ rank task inLoop := by
    have more : 0 < (phase.offsets rank).length := inLoop.1
    have := some' rank task
    exact (by omega : 0 < pairs)
  reduced _ reduced := by cases reduced

/-- A task that leaves its loop after as many transfers has not made more. -/
theorem completed_hit {moved : List UInt8} (unreduced : state.pairsAccessed = none)
    (positive : 0 < phase.iterations rank)
    (going : (phase.completed layout state rank offset moved expired).hitStonewall = false) :
    (state.task rank).pairCnt + 1 ≠ phase.iterations rank := by
  intro last
  simp [completed, unreduced, last, positive.ne'] at going

/-- A task that is running has fewer transfers behind it. -/
theorem Within.fewer (within : Within phase pairs state) (task : rank < phase.test.1.numTasks)
    (running : phase.Running state rank) : (state.task rank).pairCnt < pairs := by
  cases reduced : state.pairsAccessed with
  | none =>
      rw [Running, reduced] at running
      exact within.looping reduced rank task running
  | some most =>
      rw [Running, reduced] at running
      exact Nat.lt_of_lt_of_le running (within.reduced most reduced)

theorem Within.advance (within : Within phase pairs state)
    (iterations : ∀ rank < phase.test.1.numTasks, phase.iterations rank = pairs)
    (task : rank < phase.test.1.numTasks) (running : phase.Running state rank) :
    Within phase pairs (phase.advance layout state rank offset count expired) := by
  have fewer := within.fewer task running
  refine ⟨fun other => ?_, fun unreduced other task' inLoop => ?_, within.reduced⟩
  · by_cases same : other = rank
    · subst same
      have moved := advance_pairCnt layout phase state other offset count expired
      omega
    · rw [advance_task_of_ne same]
      exact within.pairCnt_le other
  · by_cases same : other = rank
    · subst same
      rw [InLoop, advance_task_self] at inLoop
      rw [advance_task_self]
      split at inLoop
      case isTrue complete =>
        have unreduced' : state.pairsAccessed = none := unreduced
        have last := completed_hit unreduced' (by rw [iterations other task]; omega) inLoop.2
        rw [iterations other task] at last
        rw [if_pos complete, completed_pairCnt]
        omega
      case isFalse partial' =>
        rw [if_neg partial']
        exact fewer
    · rw [InLoop, advance_task_of_ne same] at inLoop
      rw [advance_task_of_ne same]
      exact within.looping unreduced other task' inLoop

theorem Within.step (within : Within phase pairs state)
    (iterations : ∀ rank < phase.test.1.numTasks, phase.iterations rank = pairs)
    (taken : phase.step layout state action = some next) : Within phase pairs next := by
  obtain ⟨_, _, rfl⟩ | ⟨_, _, _, rfl⟩ | ⟨rank, offset, count, expired, task, running, _, _, rfl⟩ :=
    step_cases taken
  · exact ⟨within.pairCnt_le, within.looping, within.reduced⟩
  · refine ⟨within.pairCnt_le, fun reduced => by (cases reduced), fun most reduced => ?_⟩
    obtain rfl := Option.some.inj reduced
    refine List.max_le_of_forall_le _ _ fun count inside => ?_
    obtain ⟨rank, _, rfl⟩ := List.mem_map.mp inside
    exact within.pairCnt_le rank
  · exact within.advance iterations task running

/-- The files hold the first transfers of each task. -/
def Held (layout : Native UInt64 8) (phase : Phase) (pairs : ℕ) (files : ℕ → List UInt8) : Prop :=
  ∀ rank < phase.test.1.numTasks, pairs ≤ (phase.offsets rank).length ∧
    ∀ k < pairs, ∀ offset, (phase.offsets rank)[k]? = some offset →
      HasAt (files (phase.file rank)) offset (phase.buffer layout rank offset)

/-- No errors are found in transfers that the files hold. -/
theorem errorsFound_held (held : Held layout phase pairs files)
    (task : rank < phase.test.1.numTasks) (few : count ≤ pairs) :
    errorsFound layout phase files rank count = 0 := by
  rw [errorsFound]
  refine List.sum_eq_zero fun errors inside => ?_
  obtain ⟨offset, taken, rfl⟩ := List.mem_map.mp inside
  obtain ⟨k, below, same⟩ := List.mem_take_iff_getElem.mp taken
  have stored := (held rank task).2 k (by omega) offset (by
    rw [← same]
    exact List.getElem?_eq_getElem (by omega))
  rw [HasAt, length_buffer] at stored
  rw [stored, errorCount_self]

/-- A check of transfers that the files hold is not ended by the tasks' offsets or the files. -/
structure Sound (state : State) : Prop where
  lseek : state.aborted ≠ some "lseek64() failed"
  eof : state.aborted ≠ some "read() returned EOF prematurely"
  check : state.aborted ≠ some "data check error, aborting execution"

theorem sound_initial (files : ℕ → List UInt8) : Sound (.initial files) where
  lseek same := by cases same
  eof same := by cases same
  check same := by cases same

theorem Sound.step (sound : Sound state) (held : Held layout phase pairs files)
    (checked : Checked layout phase files state) (within : Within phase pairs state)
    (taken : phase.step layout state action = some next) : Sound next := by
  obtain ⟨message, aborts, rfl⟩ | ⟨_, _, _, rfl⟩ | ⟨_, _, _, _, _, _, _, _, rfl⟩ :=
    step_cases taken
  · refine ⟨fun same => ?_, fun same => ?_, fun same => ?_⟩
    · obtain ⟨rank, task, running, past⟩ := aborts.lseek (Option.some.inj same)
      have := within.fewer task running
      have := (held rank task).1
      omega
    · obtain ⟨rank, task, running, offset, listed, ends⟩ := aborts.eof (Option.some.inj same)
      have stored := (held rank task).2 _ (within.fewer task running) offset listed
      have partial' := checked.moved_lt rank
      have := stored.inside (by rwa [length_buffer])
      rw [checked.contents] at ends
      omega
    · obtain ⟨rank, task, running, offset, count, listed, checks, whole, different⟩ :=
        aborts.check (Option.some.inj same)
      have stored := (held rank task).2 _ (within.fewer task running) offset listed
      have read := checked.hasAt_append checks listed count
      rw [HasAt, whole] at read
      rw [HasAt, length_buffer, read] at stored
      exact different (by rw [stored, errorCount_self])
  · exact ⟨sound.lseek, sound.eof, sound.check⟩
  · exact ⟨sound.lseek, sound.eof, sound.check⟩

end Phase

variable {layout : Native UInt64 8} {test : Test} {random : ℕ → ℕ} {contents : ℕ → List UInt8}
  {written : State} {writes : List (Transition State Action)}

/-- `stoneWallingWearOutIterations` of a task after the write. -/
def iterationsAfter (test : Param) (written : State) (rank : ℕ) : ℕ :=
  if 0 < test.deadlineForStonewalling then
    written.pairsAccessed.getD (written.task rank).pairCnt
  else test.stoneWallingWearOutIterations

private def worn : Test := ⟨pairTest false true 1, rfl⟩

private def wornWriteActions : List Action :=
  [.xfer 0 (some 8) true, .xfer 1 (some 8) false, .xfer 1 (some 8) false, .allreduce,
    .xfer 0 (some 8) false]

private def wornWrite := (System.exec ((writePhase worn id).step littleEndianWord)
  (.initial fun _ => []) wornWriteActions).get (by decide +kernel)

private theorem wornWrite_exec : System.exec ((writePhase worn id).step littleEndianWord)
    (.initial fun _ => []) wornWriteActions = some wornWrite :=
  (Option.some_get _).symm

private def wornCheckActions : List Action :=
  [.xfer 1 (some 8) false, .xfer 0 (some 8) false, .xfer 1 (some 4) false]

private def wornCheck := (System.exec ((checkPhase worn id .writeCheck (fun _ => 1)
  (iterationsAfter worn.1 wornWrite.2)).step littleEndianWord)
  (.initial wornWrite.2.contents) wornCheckActions).get (by decide +kernel)

private theorem wornCheck_exec : System.exec ((checkPhase worn id .writeCheck (fun _ => 1)
    (iterationsAfter worn.1 wornWrite.2)).step littleEndianWord)
    (.initial wornWrite.2.contents) wornCheckActions = some wornCheck :=
  (Option.some_get _).symm

end HandsOn.Ior
