import HandsOn.Ior.Phase

/-!
# What a phase keeps

Every task has moved a beginning of its current transfer. In a write the files hold what was
moved so far; in a check the files stay, and a task has counted the errors of its transfers.
-/

namespace HandsOn.Ior

open Mpi Posix Semantics

namespace Phase

variable {layout : Native UInt64 8} {phase : Phase} {state next : State} {action : Action}
  {contents start : ℕ → List UInt8} {rank offset count : ℕ} {expired : Bool}

/-! ### One call -/

theorem length_buffer (rank offset : ℕ) :
    (phase.buffer layout rank offset).length = phase.test.1.transferSize :=
  length_transferBuffer _ _ _

@[simp] theorem advance_task_of_ne {other : ℕ} (different : other ≠ rank) :
    (phase.advance layout state rank offset count expired).task other = state.task other :=
  Function.update_of_ne different _ _

/-- The acting task after a call. -/
theorem advance_task_self :
    (phase.advance layout state rank offset count expired).task rank =
      if (state.task rank).moved.length + (phase.chunk layout state rank offset count).length =
          phase.test.1.transferSize then
        phase.completed layout state rank offset
          ((state.task rank).moved ++ phase.chunk layout state rank offset count) expired
      else
        { state.task rank with
          moved := (state.task rank).moved ++ phase.chunk layout state rank offset count
          xferRetries := (state.task rank).xferRetries + 1 } := by
  rw [← List.length_append]
  exact Function.update_self _ _ _

/-- The files after a call of `write`. -/
theorem advance_contents (writing : phase.access = .write) :
    (phase.advance layout state rank offset count expired).contents =
      Function.update state.contents (phase.file rank)
        (pwrite (state.contents (phase.file rank)) (offset + (state.task rank).moved.length)
          (phase.chunk layout state rank offset count)) :=
  if_pos writing

theorem length_chunk_le : (phase.chunk layout state rank offset count).length ≤ count := by
  rw [chunk]
  split <;> exact (length_pread _ _ _).trans_le (Nat.min_le_left _ _)

/-- What a task has moved stays less than a transfer. -/
theorem advance_moved_lt (room : count ≤ phase.test.1.transferSize - (state.task rank).moved.length)
    (below : ∀ rank, (state.task rank).moved.length < phase.test.1.transferSize) (other : ℕ) :
    ((phase.advance layout state rank offset count expired).task other).moved.length <
      phase.test.1.transferSize := by
  by_cases same : other = rank
  · subst same
    have short : (phase.chunk layout state other offset count).length ≤ count := length_chunk_le
    have := below other
    rw [advance_task_self]
    split
    · exact phase.test.transferSize_pos
    · rw [List.length_append]
      omega
  · rw [advance_task_of_ne same]
    exact below other

/-! ### Writing -/

/-- What a task has written of a transfer. -/
def done (layout : Native UInt64 8) (phase : Phase) (state : State) (rank k offset : ℕ) :
    List UInt8 :=
  if k < (state.task rank).pairCnt then phase.buffer layout rank offset
  else if k = (state.task rank).pairCnt then (state.task rank).moved
  else []

/-- What the tasks have written is in the files. -/
structure Wrote (layout : Native UInt64 8) (phase : Phase) (state : State) : Prop where
  moved_lt : ∀ rank, (state.task rank).moved.length < phase.test.1.transferSize
  moved : ∀ rank offset, (phase.offsets rank)[(state.task rank).pairCnt]? = some offset →
    HasAt (phase.buffer layout rank offset) 0 (state.task rank).moved
  held : ∀ rank < phase.test.1.numTasks, ∀ k offset, (phase.offsets rank)[k]? = some offset →
    HasAt (state.contents (phase.file rank)) offset (phase.done layout state rank k offset)

theorem wrote_initial (contents : ℕ → List UInt8) : Wrote layout phase (.initial contents) where
  moved_lt _ := phase.test.transferSize_pos
  moved _ _ _ := hasAt_nil _ _
  held rank _ k offset _ := by
    have nothing : phase.done layout (.initial contents) rank k offset = [] := by
      simp only [done, State.initial, Task.initial, Nat.not_lt_zero, if_false]
      exact ite_self _
    rw [nothing]
    exact hasAt_nil _ _

/-- The ranks stay their own in a write. -/
theorem pretendRank_self (unshifted : phase.rankOffset = fun _ => 0)
    (task : rank < phase.test.1.numTasks) : phase.pretendRank rank = rank := by
  rw [pretendRank, unshifted, Nat.add_zero, Nat.mod_eq_of_lt task]

theorem length_done_le (wrote : Wrote layout phase state) (rank k offset : ℕ) :
    (phase.done layout state rank k offset).length ≤ phase.test.1.transferSize := by
  rw [done]
  split
  · exact (length_buffer rank offset).le
  split
  · exact (wrote.moved_lt rank).le
  · exact Nat.zero_le _

/-- A call adds to the transfer it is for. -/
theorem done_advance_self (whole : HasAt (phase.buffer layout rank offset) 0
      ((state.task rank).moved ++ phase.chunk layout state rank offset count)) :
    phase.done layout (phase.advance layout state rank offset count expired) rank
        (state.task rank).pairCnt offset =
      (state.task rank).moved ++ phase.chunk layout state rank offset count := by
  rw [done, advance_task_self]
  split
  case isTrue complete =>
    rw [completed_pairCnt, if_pos (Nat.lt_succ_self _)]
    rw [HasAt, List.length_append, complete, pread, List.drop_zero, ← length_buffer rank offset,
      List.take_length] at whole
    exact whole
  case isFalse =>
    rw [if_neg (Nat.lt_irrefl _), if_pos rfl]

/-- A call keeps what was written of other transfers. -/
theorem done_advance_other {other k offset' : ℕ}
    (different : other = rank → k ≠ (state.task rank).pairCnt) :
    phase.done layout (phase.advance layout state rank offset count expired) other k offset' =
      phase.done layout state other k offset' := by
  by_cases same : other = rank
  · subst same
    have different := different rfl
    simp only [done, advance_task_self]
    split
    · rw [completed_pairCnt, completed_moved]
      by_cases early : k < (state.task other).pairCnt
      · rw [if_pos early, if_pos (by omega)]
      · rw [if_neg early, if_neg (by omega), ite_self]
    · rfl
  · rw [done, done, advance_task_of_ne same]

/-- A call of `write` keeps what was written and adds to it. -/
theorem Wrote.advance (wrote : Wrote layout phase state) (writing : phase.access = .write)
    (unshifted : phase.rankOffset = fun _ => 0) (task : rank < phase.test.1.numTasks)
    (listed : (phase.offsets rank)[(state.task rank).pairCnt]? = some offset)
    (room : count ≤ phase.test.1.transferSize - (state.task rank).moved.length) :
    Wrote layout phase (phase.advance layout state rank offset count expired) := by
  have begun := wrote.moved rank offset listed
  have short : (phase.chunk layout state rank offset count).length ≤ count := length_chunk_le
  have below := wrote.moved_lt rank
  have chunk_eq : phase.chunk layout state rank offset count =
      pread (phase.buffer layout rank offset) (state.task rank).moved.length count := by
    rw [chunk, if_pos writing]
  have extended : HasAt (phase.buffer layout rank offset) 0
      ((state.task rank).moved ++ phase.chunk layout state rank offset count) := by
    have := begun.append_pread count
    rwa [Nat.zero_add, ← chunk_eq] at this
  refine ⟨advance_moved_lt room wrote.moved_lt, fun other offset' listed' => ?_,
    fun other task' k offset' listed' => ?_⟩
  · by_cases same : other = rank
    · subst same
      rw [advance_task_self] at listed' ⊢
      split at listed'
      case isTrue complete =>
        rw [if_pos complete]
        exact hasAt_nil _ _
      case isFalse partial' =>
        obtain rfl : offset = offset' := Option.some.inj (listed.symm.trans listed')
        rw [if_neg partial']
        exact extended
    · rw [advance_task_of_ne same] at listed' ⊢
      exact wrote.moved other offset' listed'
  · have kept := wrote.held other task' k offset' listed'
    rw [advance_contents writing]
    by_cases same : phase.file other = phase.file rank
    · rw [same, Function.update_self]
      rw [same] at kept
      by_cases current : other = rank ∧ k = (state.task rank).pairCnt
      · obtain ⟨rfl, rfl⟩ := current
        obtain rfl : offset = offset' := Option.some.inj (listed.symm.trans listed')
        rw [done_advance_self extended]
        rw [done, if_neg (Nat.lt_irrefl _), if_pos rfl] at kept
        exact kept.pwrite_next _
      · -- The other transfer is at another multiple of the transfer size.
        rw [done_advance_other fun equal => fun here => current ⟨equal, here⟩]
        refine kept.pwrite_apart ?_
        have whole := length_done_le wrote other k offset'
        have ⟨own, own'⟩ := (⟨pretendRank_self unshifted task, pretendRank_self unshifted task'⟩ :
          phase.pretendRank rank = rank ∧ phase.pretendRank other = other)
        rw [offsets, own] at listed
        rw [offsets, own'] at listed'
        rw [file, file, own, own'] at same
        obtain ⟨-, multiple, -⟩ := (mem_document _).mp (access_mem_document task listed)
        obtain ⟨-, multiple', -⟩ := (mem_document _).mp (access_mem_document task' listed')
        have different : offset ≠ offset' := by
          rintro rfl
          exact current (access_inj task' task listed' listed same)
        have := multiples_apart multiple multiple' different
        omega
    · rw [Function.update_of_ne same,
        done_advance_other fun equal => absurd (congrArg _ equal) same]
      exact kept

/-- Whatever the tasks do, what was written stays in the files. -/
theorem Wrote.step (wrote : Wrote layout phase state) (writing : phase.access = .write)
    (unshifted : phase.rankOffset = fun _ => 0)
    (taken : phase.step layout state action = some next) : Wrote layout phase next := by
  obtain ⟨_, _, rfl⟩ | ⟨_, _, _, rfl⟩ |
    ⟨rank, offset, count, expired, task, _, listed, returns, rfl⟩ := step_cases taken
  · exact ⟨wrote.moved_lt, wrote.moved, wrote.held⟩
  · exact ⟨wrote.moved_lt, wrote.moved, wrote.held⟩
  · exact wrote.advance writing unshifted task listed returns.1

/-! ### Checking -/

/-- The errors that a task finds in its transfers up to one. -/
def errorsFound (layout : Native UInt64 8) (phase : Phase) (files : ℕ → List UInt8)
    (rank pairs : ℕ) : ℕ :=
  (((phase.offsets rank).take pairs).map fun offset =>
    errorCount layout (phase.buffer layout rank offset)
      (pread (files (phase.file rank)) offset phase.test.1.transferSize)
      phase.test.1.transferSize).sum

/-- The tasks have read the files and counted the errors. -/
structure Checked (layout : Native UInt64 8) (phase : Phase) (files : ℕ → List UInt8)
    (state : State) : Prop where
  contents : state.contents = files
  moved_lt : ∀ rank, (state.task rank).moved.length < phase.test.1.transferSize
  moved : ∀ rank offset, (phase.offsets rank)[(state.task rank).pairCnt]? = some offset →
    HasAt (files (phase.file rank)) offset (state.task rank).moved
  errors : ∀ rank, (state.task rank).errors =
    Int32.ofNat (errorsFound layout phase files rank (state.task rank).pairCnt)

theorem checked_initial (files : ℕ → List UInt8) :
    Checked layout phase files (.initial files) where
  contents := rfl
  moved_lt _ := phase.test.transferSize_pos
  moved _ _ _ := hasAt_nil _ _
  errors _ := rfl

/-- The errors up to the next transfer. -/
theorem errorsFound_succ {files : ℕ → List UInt8} {pairs : ℕ}
    (listed : (phase.offsets rank)[pairs]? = some offset) :
    errorsFound layout phase files rank (pairs + 1) =
      errorsFound layout phase files rank pairs +
        errorCount layout (phase.buffer layout rank offset)
          (pread (files (phase.file rank)) offset phase.test.1.transferSize)
          phase.test.1.transferSize := by
  obtain ⟨below, rfl⟩ := List.getElem?_eq_some_iff.mp listed
  rw [errorsFound, List.take_succ_eq_append_getElem below, List.map_append, List.sum_append]
  simp [errorsFound]

/-- A call of `read` in a check adds to the transfer what follows in the file. -/
theorem Checked.hasAt_append {files : ℕ → List UInt8} (checked : Checked layout phase files state)
    (checks : phase.access = .writeCheck ∨ phase.access = .readCheck)
    (listed : (phase.offsets rank)[(state.task rank).pairCnt]? = some offset) (count : ℕ) :
    HasAt (files (phase.file rank)) offset
      ((state.task rank).moved ++ phase.chunk layout state rank offset count) := by
  have reading : phase.access ≠ .write := by
    rcases checks with checks | checks <;> rw [checks] <;> decide
  rw [chunk, if_neg reading, checked.contents]
  exact (checked.moved rank offset listed).append_pread count

theorem Checked.advance {files : ℕ → List UInt8} (checked : Checked layout phase files state)
    (checks : phase.access = .writeCheck ∨ phase.access = .readCheck)
    (listed : (phase.offsets rank)[(state.task rank).pairCnt]? = some offset)
    (room : count ≤ phase.test.1.transferSize - (state.task rank).moved.length) :
    Checked layout phase files (phase.advance layout state rank offset count expired) := by
  have reading : phase.access ≠ .write := by
    rcases checks with checks | checks <;> rw [checks] <;> decide
  have extended := checked.hasAt_append checks listed count
  refine ⟨(if_neg reading).trans checked.contents, advance_moved_lt room checked.moved_lt,
    fun other offset' listed' => ?_, fun other => ?_⟩
  · by_cases same : other = rank
    · subst same
      rw [advance_task_self] at listed' ⊢
      split at listed'
      case isTrue complete =>
        rw [if_pos complete]
        exact hasAt_nil _ _
      case isFalse partial' =>
        obtain rfl : offset = offset' := Option.some.inj (listed.symm.trans listed')
        rw [if_neg partial']
        exact extended
    · rw [advance_task_of_ne same] at listed' ⊢
      exact checked.moved other offset' listed'
  · by_cases same : other = rank
    · subst same
      rw [advance_task_self]
      split
      case isTrue complete =>
        have whole : pread (files (phase.file other)) offset phase.test.1.transferSize =
            (state.task other).moved ++ phase.chunk layout state other offset count := by
          rw [HasAt, List.length_append, complete] at extended
          exact extended
        rw [completed_pairCnt, errorsFound_succ listed, Int32.ofNat_add, ← checked.errors, whole]
        exact if_pos checks
      case isFalse => exact checked.errors other
    · rw [advance_task_of_ne same]
      exact checked.errors other

/-- Whatever the tasks do, they have counted the errors of their transfers. -/
theorem Checked.step {files : ℕ → List UInt8} (checked : Checked layout phase files state)
    (checks : phase.access = .writeCheck ∨ phase.access = .readCheck)
    (taken : phase.step layout state action = some next) : Checked layout phase files next := by
  obtain ⟨_, _, rfl⟩ | ⟨_, _, _, rfl⟩ |
    ⟨rank, offset, count, expired, _, _, listed, returns, rfl⟩ := step_cases taken
  · exact ⟨checked.contents, checked.moved_lt, checked.moved, checked.errors⟩
  · exact ⟨checked.contents, checked.moved_lt, checked.moved, checked.errors⟩
  · exact checked.advance checks listed returns.1

end Phase

end HandsOn.Ior
