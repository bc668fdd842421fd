import HandsOn.Semantics.Blocks
import HandsOn.Semantics.Refuse
import Mathlib.Data.List.Nodup
import Mathlib.Tactic.Ring

/-!
# The offsets of the accesses

Before it accesses the file, a task computes where: block by block, or in a random order.
`transfers` are the accesses of all tasks; in either order they are the transfers which the
files consist of.
-/

namespace HandsOn.Ior

open Semantics

/-- The parameters in `IOR_param_t` which the accesses to the files depend on. -/
structure Param where
  numTasks : ℕ
  tasksPerNode : ℕ
  readFile : Bool
  writeFile : Bool
  filePerProc : Bool
  reorderTasks : Bool
  taskPerNodeOffset : ℕ
  reorderTasksRandom : Bool
  checkWrite : Bool
  checkRead : Bool
  segmentCount : ℕ
  blockSize : ℕ
  transferSize : ℕ
  storeFileOffset : Bool
  deadlineForStonewalling : ℕ
  stoneWallingWearOut : Bool
  stoneWallingWearOutIterations : ℕ
  setTimeStampSignature : ℕ
  timeStampSignatureValue : UInt32
  randomOffset : Bool
  singleXferAttempt : Bool
  quitOnError : Bool
deriving DecidableEq

/-- The checks of `ValidateTests` on these parameters, in its order. -/
def validateTests (test : Param) : Except String Unit := do
  refuse (test.numTasks = 0) "too few tasks for testing"
  refuse (!test.readFile ∧ !test.writeFile ∧ !test.checkRead ∧ !test.checkWrite)
    "test must write, read, or check read/write file"
  refuse (test.setTimeStampSignature = 0 ∧ !test.writeFile ∧ test.checkRead)
    "using readCheck only requires to write a timeStampSignature -- use -G"
  refuse (test.blockSize % 8 ≠ 0) "block size must be a multiple of access size"
  refuse (test.transferSize % 8 ≠ 0) "transfer size must be a multiple of access size"
  refuse (test.transferSize = 0) "test will not complete with zero transfer size"
  refuse (test.blockSize % test.transferSize ≠ 0) "block size must be a multiple of transfer size"
  refuse (test.blockSize < test.transferSize) "block size must not be smaller than transfer size"
  refuse (test.reorderTasks ∧ test.reorderTasksRandom)
    "Both Constant and Random task re-ordering specified. Choose one and resubmit"
  refuse (test.randomOffset ∧ test.reorderTasksRandom ∧ !test.filePerProc)
    ("random offset and random reorder tasks specified with single-shared-file. " ++
      "Choose one and resubmit")
  refuse (test.randomOffset ∧ test.reorderTasks ∧ !test.filePerProc)
    ("random offset and constant reorder tasks specified with single-shared-file. " ++
      "Choose one and resubmit")
  refuse (test.randomOffset ∧ test.checkRead)
    "random offset not available with read check option (use write check)"
  refuse (test.randomOffset ∧ test.storeFileOffset)
    "random offset not available with store file offset option)"

/-- The parameters of a test that passed its checks. -/
abbrev Test := { test : Param // validateTests test = .ok () }

namespace Test

variable (test : Test)

/-- What all checks together say. -/
theorem checked : 0 < test.1.numTasks ∧ 8 ∣ test.1.transferSize ∧ 0 < test.1.transferSize ∧
    test.1.transferSize ∣ test.1.blockSize ∧ test.1.transferSize ≤ test.1.blockSize ∧
    (test.1.randomOffset = true → test.1.storeFileOffset = false) := by
  obtain ⟨test, passes⟩ := test
  simp only [validateTests, refuse_bind_ok, refuse_ok] at passes
  obtain ⟨tasks, -, -, -, words, positive, divides, smaller, -, -, -, -, stored⟩ := passes
  refine ⟨Nat.pos_of_ne_zero tasks, ?_, Nat.pos_of_ne_zero positive, ?_, Nat.not_lt.mp smaller,
    by simpa using stored⟩
  · exact Nat.dvd_of_mod_eq_zero (not_not.mp words)
  · exact Nat.dvd_of_mod_eq_zero (not_not.mp divides)

theorem numTasks_pos : 0 < test.1.numTasks := test.checked.1

theorem transferSize_pos : 0 < test.1.transferSize := test.checked.2.2.1

theorem transferSize_words : 8 ∣ test.1.transferSize := test.checked.2.1

theorem transferSize_dvd : test.1.transferSize ∣ test.1.blockSize := test.checked.2.2.2.1

end Test

namespace Param

variable (test : Param)

/-- The file of a task, by number: its own, or the shared one. -/
def file (pretendRank : ℕ) : ℕ := if test.filePerProc then pretendRank else 0

/-- How many files the tasks access. -/
def files : ℕ := if test.filePerProc then test.numTasks else 1

/-- `fileSize` -/
def fileSize : ℕ :=
  if test.filePerProc then test.blockSize * test.segmentCount
  else test.blockSize * test.segmentCount * test.numTasks

/-- The transfers which the files consist of, by file and offset. -/
def document : List (ℕ × ℕ) :=
  (List.range test.files).flatMap fun file =>
    (List.range (test.fileSize / test.transferSize)).map fun k => (file, k * test.transferSize)

/-- The transfers of all tasks, by file and offset. -/
def transfers (offsetArray : ℕ → List ℕ) : List (ℕ × ℕ) :=
  (List.range test.numTasks).flatMap fun pretendRank =>
    (offsetArray pretendRank).map fun offset => (test.file pretendRank, offset)

end Param

/-- `GetOffsetArraySequential`, without the end marker -/
def getOffsetArraySequential (test : Param) (pretendRank : ℕ) : List ℕ :=
  (List.range test.segmentCount).flatMap fun i =>
    (List.range (test.blockSize / test.transferSize)).map fun j =>
      j * test.transferSize +
        if test.filePerProc then i * test.blockSize
        else i * test.numTasks * test.blockSize + pretendRank * test.blockSize

/-- The iterations of `for (i = 0; i < fileSize; i += test->transferSize)`. -/
def iterations (test : Param) : ℕ :=
  (test.fileSize + test.transferSize - 1) / test.transferSize

/-- `GetOffsetArrayRandom`, without the end marker. `random k` is what the `k`-th call of
`random` gives after `srandom(seed)`; the second pass and the exchanges follow the same
`srandom(seed)`. -/
def getOffsetArrayRandom (test : Param) (random : ℕ → ℕ) (pretendRank : ℕ) : List ℕ :=
  if test.filePerProc then
    let offsets := (List.range (iterations test)).map (· * test.transferSize)
    (exchange (fun i => random i % offsets.length) (List.range offsets.length)
      offsets.toArray).toList
  else
    let offsets := ((List.range (iterations test)).filter
      (random · % test.numTasks = pretendRank)).map (· * test.transferSize)
    (exchange (fun i => random (iterations test + i) % offsets.length)
      (List.range offsets.length) offsets.toArray).toList

/-- The offsets of a task, as `WriteOrRead` chooses them. -/
def offsetArray (test : Param) (random : ℕ → ℕ) : ℕ → List ℕ :=
  if test.randomOffset then getOffsetArrayRandom test random else getOffsetArraySequential test

/-! ### In either order the transfers are those of the files -/

variable (test : Test)

/-- The transfers in a block. -/
def Test.perBlock : ℕ := test.1.blockSize / test.1.transferSize

theorem Test.perBlock_pos : 0 < test.perBlock :=
  Nat.div_pos test.checked.2.2.2.2.1 test.transferSize_pos

theorem blockSize_eq : test.1.blockSize = test.perBlock * test.1.transferSize :=
  (Nat.div_mul_cancel test.transferSize_dvd).symm

theorem fileSize_eq :
    test.1.fileSize = (if test.1.filePerProc then 1 else test.1.numTasks) *
      test.1.segmentCount * test.perBlock * test.1.transferSize := by
  rw [Param.fileSize, blockSize_eq]
  split <;> ring

theorem fileSize_div :
    test.1.fileSize / test.1.transferSize = (if test.1.filePerProc then 1 else test.1.numTasks) *
      test.1.segmentCount * test.perBlock := by
  rw [fileSize_eq, Nat.mul_div_cancel _ test.transferSize_pos]

theorem iterations_eq : iterations test.1 = test.1.fileSize / test.1.transferSize := by
  have positive := test.transferSize_pos
  rw [iterations, fileSize_eq, Nat.mul_div_cancel _ positive]
  apply Nat.div_eq_of_lt_le
  · omega
  · rw [Nat.succ_mul]
    omega

theorem getOffsetArraySequential_eq (pretendRank : ℕ) :
    getOffsetArraySequential test.1 pretendRank =
      (List.range test.1.segmentCount).flatMap fun i => (List.range test.perBlock).map fun j =>
        ((if test.1.filePerProc then i else i * test.1.numTasks + pretendRank) * test.perBlock +
          j) * test.1.transferSize := by
  rw [getOffsetArraySequential, ← Test.perBlock]
  congr
  funext i
  congr
  funext j
  rw [blockSize_eq]
  split <;> ring

/-- The blocks of a segment, by rank, are consecutive. -/
theorem sequential_perm :
    (test.1.transfers (getOffsetArraySequential test.1)).Perm test.1.document := by
  rw [Param.transfers, Param.document, fileSize_div]
  simp only [getOffsetArraySequential_eq, List.map_flatMap, List.map_map, Function.comp_def]
  by_cases own : test.1.filePerProc = true
  · simp only [Param.files, Param.file, own, if_true, Nat.one_mul]
    refine List.Perm.flatMap_left _ fun pretendRank _ => .of_eq ?_
    exact flatMap_range_mul _ _ fun k => (pretendRank, k * test.1.transferSize)
  · simp only [Param.files, Param.file, own, if_false, List.range_one, List.flatMap_singleton,
      Bool.false_eq_true]
    refine (flatMap_swap_perm _ _ _).trans (.of_eq ?_)
    rw [flatMap_flatMap_range_mul test.1.segmentCount test.1.numTasks fun block =>
        (List.range test.perBlock).map fun j =>
          (0, (block * test.perBlock + j) * test.1.transferSize),
      flatMap_range_mul _ _ fun k => (0, k * test.1.transferSize),
      Nat.mul_comm test.1.numTasks]

/-- Each transfer of a shared file goes to the task that the generator names. -/
theorem random_perm (random : ℕ → ℕ) :
    (test.1.transfers (getOffsetArrayRandom test.1 random)).Perm test.1.document := by
  have shuffled : ∀ (choice : ℕ → ℕ) (steps offsets : List ℕ),
      (exchange choice steps offsets.toArray).toList.Perm offsets := fun choice steps offsets =>
    (exchange_perm choice steps offsets.toArray).toList
  rw [Param.transfers, Param.document]
  by_cases own : test.1.filePerProc = true
  · simp only [Param.files, Param.file, getOffsetArrayRandom, own, if_true, iterations_eq]
    refine List.Perm.flatMap_left _ fun pretendRank _ => ?_
    refine ((shuffled _ _ _).map fun offset => (pretendRank, offset)).trans (.of_eq ?_)
    rw [List.map_map]
    rfl
  · simp only [Param.files, Param.file, getOffsetArrayRandom, own, if_false, iterations_eq,
      List.range_one, List.flatMap_singleton, Bool.false_eq_true]
    refine (List.Perm.flatMap_left _ fun pretendRank _ => (shuffled _ _ _).map _).trans ?_
    simp only [List.map_map, Function.comp_def]
    rw [← List.map_flatMap]
    exact (flatMap_filter_perm (fun k => random k % test.1.numTasks) fun k _ =>
      Nat.mod_lt _ test.numTasks_pos).map _

/-- The tasks access each transfer of the files once. -/
theorem transfers_perm (random : ℕ → ℕ) :
    (test.1.transfers (offsetArray test.1 random)).Perm test.1.document := by
  rw [offsetArray]
  split
  · exact random_perm test random
  · exact sequential_perm test

/-- Every transfer lies in the file and begins at a multiple of the transfer size. -/
theorem mem_document {file offset : ℕ} :
    (file, offset) ∈ test.1.document ↔ file < test.1.files ∧ test.1.transferSize ∣ offset ∧
      offset + test.1.transferSize ≤ test.1.fileSize := by
  have whole : test.1.fileSize = test.1.fileSize / test.1.transferSize * test.1.transferSize := by
    rw [fileSize_div, ← fileSize_eq]
  simp only [Param.document, List.mem_flatMap, List.mem_range, List.mem_map, Prod.mk.injEq]
  constructor
  · rintro ⟨file, below, k, early, rfl, rfl⟩
    refine ⟨below, Nat.dvd_mul_left _ _, ?_⟩
    rw [whole, ← Nat.succ_mul]
    exact Nat.mul_le_mul_right _ early
  · rintro ⟨below, ⟨k, rfl⟩, early⟩
    refine ⟨file, below, k, ?_, rfl, Nat.mul_comm _ _⟩
    apply (Nat.le_div_iff_mul_le test.transferSize_pos).mpr
    rwa [Nat.succ_mul, Nat.mul_comm k]

theorem nodup_document : test.1.document.Nodup := by
  refine List.nodup_flatMap.mpr ⟨fun file _ => ?_, ?_⟩
  · refine (List.nodup_range).map fun k k' same => ?_
    exact Nat.eq_of_mul_eq_mul_right test.transferSize_pos (Prod.mk.inj same).2
  · refine (List.nodup_range).imp fun different transfer first second => different ?_
    obtain ⟨_, _, rfl⟩ := List.mem_map.mp first
    obtain ⟨_, _, same⟩ := List.mem_map.mp second
    exact (Prod.mk.inj same).1.symm

theorem nodup_transfers (random : ℕ → ℕ) :
    (test.1.transfers (offsetArray test.1 random)).Nodup :=
  (transfers_perm test random).nodup_iff.mpr (nodup_document test)

section

variable {test} {random : ℕ → ℕ} {rank rank' k k' offset : ℕ}

/-- An access of a task is to a transfer of a file. -/
theorem access_mem_document (task : rank < test.1.numTasks)
    (listed : (offsetArray test.1 random rank)[k]? = some offset) :
    (test.1.file rank, offset) ∈ test.1.document := by
  apply (transfers_perm test random).mem_iff.mp
  refine List.mem_flatMap.mpr ⟨rank, List.mem_range.mpr task, List.mem_map.mpr ⟨offset, ?_, rfl⟩⟩
  exact List.mem_of_getElem? listed

/-- No two accesses are to the same transfer of the same file. -/
theorem access_inj (task : rank < test.1.numTasks) (task' : rank' < test.1.numTasks)
    (listed : (offsetArray test.1 random rank)[k]? = some offset)
    (listed' : (offsetArray test.1 random rank')[k']? = some offset)
    (same : test.1.file rank = test.1.file rank') : rank = rank' ∧ k = k' := by
  have distinct := nodup_transfers test random
  have inside : ∀ {rank k}, (offsetArray test.1 random rank)[k]? = some offset →
      (test.1.file rank, offset) ∈ (offsetArray test.1 random rank).map (test.1.file rank, ·) :=
    fun listed => List.mem_map_of_mem (List.mem_of_getElem? listed)
  obtain rfl := block_unique distinct task task' (inside listed) (same ▸ inside listed')
  have own := (List.nodup_flatMap.mp distinct).1 rank (List.mem_range.mpr task)
  obtain ⟨below, _⟩ := List.getElem?_eq_some_iff.mp listed
  exact ⟨rfl, (List.getElem?_inj below own.of_map).mp (listed.trans listed'.symm)⟩

end

/-- Different multiples are far apart. -/
theorem multiples_apart {size first second : ℕ} (multiple : size ∣ first)
    (multiple' : size ∣ second) (different : first ≠ second) :
    first + size ≤ second ∨ second + size ≤ first := by
  obtain ⟨a, rfl⟩ := multiple
  obtain ⟨b, rfl⟩ := multiple'
  rcases Nat.lt_or_gt_of_ne fun same => different (congrArg _ same) with less | greater
  · exact .inl (by rw [← Nat.mul_succ]; exact Nat.mul_le_mul_left _ less)
  · exact .inr (by rw [← Nat.mul_succ]; exact Nat.mul_le_mul_left _ greater)

/-- In either order, and whatever `random` gives, each byte of each file is in exactly one access
of exactly one task, and no access is outside. -/
theorem accesses_partition (random : ℕ → ℕ) :
    (∀ file < test.1.files, ∀ position < test.1.fileSize, ∃! access : ℕ × ℕ,
      access.1 < test.1.numTasks ∧ test.1.file access.1 = file ∧ ∃ offset,
        (offsetArray test.1 random access.1)[access.2]? = some offset ∧ offset ≤ position ∧
          position < offset + test.1.transferSize) ∧
    ∀ rank < test.1.numTasks, ∀ offset ∈ offsetArray test.1 random rank,
      test.1.file rank < test.1.files ∧ offset + test.1.transferSize ≤ test.1.fileSize := by
  refine ⟨fun file below position inside => ?_, fun rank task offset listed => ?_⟩
  · have positive := test.transferSize_pos
    have whole : test.1.transferSize ∣ test.1.fileSize := by
      rw [fileSize_eq]
      exact Nat.dvd_mul_left _ _
    have start := Nat.div_mul_le_self position test.1.transferSize
    have stop := Nat.lt_div_mul_add positive (a := position)
    have fits : position / test.1.transferSize * test.1.transferSize + test.1.transferSize ≤
        test.1.fileSize := by
      obtain ⟨count, same⟩ := whole
      rw [same, Nat.mul_comm _ count, ← Nat.succ_mul]
      refine Nat.mul_le_mul_right _ (Nat.div_lt_of_lt_mul ?_)
      rwa [← same]
    obtain ⟨rank, task, listed⟩ := List.mem_flatMap.mp ((transfers_perm test random).mem_iff.mpr
      ((mem_document test).mpr ⟨below, Nat.dvd_mul_left _ _, fits⟩))
    obtain ⟨offset, listed, same⟩ := List.mem_map.mp listed
    obtain ⟨rfl, rfl⟩ := Prod.mk.inj same
    obtain ⟨k, early, at'⟩ := List.mem_iff_getElem.mp listed
    refine ⟨(rank, k), ⟨List.mem_range.mp task, rfl, _,
      (List.getElem?_eq_getElem early).trans (congrArg some at'), start, by omega⟩, ?_⟩
    rintro ⟨other, k'⟩ ⟨task', same, offset, listed', before, after⟩
    dsimp only at task' same listed' before after
    have listed : (offsetArray test.1 random rank)[k]? = some _ :=
      (List.getElem?_eq_getElem early).trans (congrArg some at')
    obtain ⟨-, multiple, -⟩ := (mem_document test).mp (access_mem_document task' listed')
    have here : offset = position / test.1.transferSize * test.1.transferSize := by
      by_contra different
      have := multiples_apart multiple (Nat.dvd_mul_left _ _) different
      omega
    rw [here] at listed'
    obtain ⟨rfl, rfl⟩ := access_inj task' (List.mem_range.mp task) listed' listed same
    rfl
  · obtain ⟨k, below, rfl⟩ := List.mem_iff_getElem.mp listed
    obtain ⟨there, -, fits⟩ := (mem_document test).mp
      (access_mem_document task (List.getElem?_eq_getElem below))
    exact ⟨there, fits⟩

/-- Two tasks with two segments in a shared file. -/
def pairTest (randomOffset wearOut : Bool) (deadline : ℕ) : Param where
  numTasks := 2
  tasksPerNode := 1
  readFile := false
  writeFile := true
  filePerProc := false
  reorderTasks := false
  taskPerNodeOffset := 1
  reorderTasksRandom := false
  checkWrite := true
  checkRead := false
  segmentCount := 2
  blockSize := 8
  transferSize := 8
  storeFileOffset := false
  deadlineForStonewalling := deadline
  stoneWallingWearOut := wearOut
  stoneWallingWearOutIterations := 0
  setTimeStampSignature := 0
  timeStampSignatureValue := 5
  randomOffset := randomOffset
  singleXferAttempt := false
  quitOnError := false

theorem accesses_partition_pair :
    offsetArray (pairTest true false 0) (· / 2) 0 = [8, 0] ∧
      ∃! access : ℕ × ℕ, access.1 < 2 ∧ (pairTest true false 0).file access.1 = 0 ∧ ∃ offset,
        (offsetArray (pairTest true false 0) (· / 2) access.1)[access.2]? =
          some offset ∧ offset ≤ 12 ∧ 12 < offset + 8 :=
  ⟨by decide, (accesses_partition ⟨pairTest true false 0, rfl⟩ (· / 2)).1 0 (by decide) 12
    (by decide)⟩

end HandsOn.Ior
