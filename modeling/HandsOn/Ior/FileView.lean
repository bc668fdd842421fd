import HandsOn.Ior.Offsets
import HandsOn.Mpi.FileView

/-!
# Transfers through a file view

With the option to use file views the MPI-IO back end sets a view that shows each task the blocks
of one rank, and seeks in it. The transfers are the same as at explicit offsets, if the sizes in
`fileTypeStruct` and the counts are `int`s: both kinds of transfer convert them.
-/

namespace HandsOn.Ior

open Mpi Posix Semantics

variable (test : Param) (rank rankOffset : ℕ)

/-- `offsetFactor` and `tasksPerFile` -/
def fileLayout : ℕ × ℕ :=
  if test.filePerProc then (0, 1) else ((rank + rankOffset) % test.numTasks, test.numTasks)

/-- `MPIIO_Open` with `useFileView`: `transferType` and the view that it sets; `none` where a call
fails or an `int` overflows. -/
def mpiioOpen : Option (Datatype × FileView) := do
  let transfersPerBlock := Int32.ofNat (test.blockSize / test.transferSize)
  let transferType ← Datatype.contiguous (Int32.ofNat (test.transferSize / 8)) (.basic 8)
  let offsetFactor := (fileLayout test rank rankOffset).1
  let tasksPerFile := (fileLayout test rank rankOffset).2
  let globalSize ← CheckedInt.mul? transfersPerBlock (Int32.ofNat tasksPerFile)
  let startIndex ← CheckedInt.mul? transfersPerBlock (Int32.ofNat offsetFactor)
  let fileType ← Datatype.createSubarray [1, globalSize] [1, transfersPerBlock] [0, startIndex]
    transferType
  return (transferType, .ofFiletype 0 fileType
    (globalSize.toInt.toNat * transferType.extent.toNat))

/-- `SeekOffset` with `useFileView`, in transfers -/
def seekOffset (offset : ℕ) : ℕ :=
  let (offsetFactor, tasksPerFile) := fileLayout test rank rankOffset
  if test.filePerProc then offset / test.transferSize
  else test.blockSize / test.transferSize * (offset / (test.blockSize * tasksPerFile)) +
    (offset % (test.blockSize * tasksPerFile) - offsetFactor * test.blockSize) / test.transferSize

/-- `MPIIO_Xfer` for a write: `MPI_File_write` of one `transferType`, or `MPI_File_write_at` of
`length` bytes, which become an `int` and fail where it is negative -/
def mpiioWrite (useFileView : Bool) (offset : ℕ) (buffer content : List UInt8) :
    Option (List UInt8) :=
  if useFileView then do
    let (transferType, view) ← mpiioOpen test rank rankOffset
    return view.write content (seekOffset test rank rankOffset offset * transferType.size)
      (buffer.take transferType.size)
  else
    let count := Int32.ofNat test.transferSize
    if 0 ≤ count then some (pwrite content offset (buffer.take count.toInt.toNat)) else none

/-- `MPIIO_Xfer` for a read: `MPI_File_read` or `MPI_File_read_at` -/
def mpiioRead (useFileView : Bool) (offset : ℕ) (content : List UInt8) : Option (List UInt8) :=
  if useFileView then do
    let (transferType, view) ← mpiioOpen test rank rankOffset
    return view.read content (seekOffset test rank rankOffset offset * transferType.size)
      transferType.size
  else
    let count := Int32.ofNat test.transferSize
    if 0 ≤ count then some (pread content offset count.toInt.toNat) else none

/-! ### The view of a task -/

section

variable (test : Test) (rank rankOffset : ℕ)

/-- The view of a task where the sizes are `int`s. -/
def taskView : FileView :=
  .ofFiletype 0 (.subarray [1, test.perBlock * (fileLayout test.1 rank rankOffset).2]
      [1, test.perBlock] [0, test.perBlock * (fileLayout test.1 rank rankOffset).1]
      ((Datatype.basic 8).block (test.1.transferSize / 8) 0))
    (test.perBlock * (fileLayout test.1 rank rankOffset).2 * test.1.transferSize)

theorem fileLayout_lt : (fileLayout test.1 rank rankOffset).1 <
    (fileLayout test.1 rank rankOffset).2 := by
  rw [fileLayout]
  split
  · exact Nat.one_pos
  · exact Nat.mod_lt _ test.numTasks_pos

theorem fileLayout_snd : (fileLayout test.1 rank rankOffset).2 =
    if test.1.filePerProc then 1 else test.1.numTasks := by
  rw [fileLayout]
  split <;> rfl

end

variable {test : Test} {rank rankOffset : ℕ}

theorem transferType_positions :
    ((Datatype.basic 8).block (test.1.transferSize / 8) 0).positions =
      (List.range test.1.transferSize).map (↑) := by
  rw [Datatype.positions_block_basic, Nat.div_mul_cancel test.transferSize_words]
  simp only [zero_add]

theorem transferType_extent :
    ((Datatype.basic 8).block (test.1.transferSize / 8) 0).extent =
      (test.1.transferSize : Int) := by
  have some' : 0 < test.1.transferSize / 8 :=
    Nat.div_pos (Nat.le_of_dvd test.transferSize_pos test.transferSize_words) (by omega)
  rw [Datatype.extent_block_basic some', Nat.div_mul_cancel test.transferSize_words]

theorem transferType_size :
    ((Datatype.basic 8).block (test.1.transferSize / 8) 0).size = test.1.transferSize := by
  rw [Datatype.size_block_basic, Nat.div_mul_cancel test.transferSize_words]

/-- Where the sizes are `int`s, the file is opened with the view. -/
theorem mpiioOpen_eq (sized : test.1.transferSize < 2 ^ 31)
    (fits : test.perBlock * (fileLayout test.1 rank rankOffset).2 < 2 ^ 31) :
    mpiioOpen test.1 rank rankOffset =
      some ((Datatype.basic 8).block (test.1.transferSize / 8) 0,
        taskView test rank rankOffset) := by
  have before := fileLayout_lt test rank rankOffset
  have row := Nat.mul_le_mul_left test.perBlock (Nat.succ_le_of_lt before)
  have block := Nat.le_mul_of_pos_right test.perBlock (Nat.zero_lt_of_lt before)
  have tasks := Nat.le_mul_of_pos_left (fileLayout test.1 rank rankOffset).2 test.perBlock_pos
  rw [Nat.mul_succ] at row
  have words : test.1.transferSize / 8 < 2 ^ 31 := (Nat.div_le_self _ _).trans_lt sized
  have globalSize := CheckedInt.mul?_ofNat (block.trans_lt fits) (tasks.trans_lt fits) fits
  have startIndex := CheckedInt.mul?_ofNat (block.trans_lt fits)
    ((before.le.trans tasks).trans_lt fits) (by omega :
      test.perBlock * (fileLayout test.1 rank rankOffset).1 < 2 ^ 31)
  have perBlock_eq : test.1.blockSize / test.1.transferSize = test.perBlock := rfl
  rw [mpiioOpen, Datatype.contiguous_ofNat words, perBlock_eq]
  simp only [Option.bind_eq_bind]
  rw [Option.bind_some, globalSize, Option.bind_some, startIndex, Option.bind_some,
    Datatype.createSubarray_row _ test.perBlock_pos row fits, Option.bind_some,
    CheckedInt.toInt_ofNat fits, transferType_extent, Int.toNat_natCast, Int.toNat_natCast]
  rfl

/-- The bytes of a tile: a part of a segment. -/
theorem taskView_places : (taskView test rank rankOffset).places =
    List.range' (test.perBlock * (fileLayout test.1 rank rankOffset).1 * test.1.transferSize)
      (test.perBlock * test.1.transferSize) :=
  Datatype.positions_row transferType_positions transferType_extent _ _ _

/-- A byte of a tile. -/
theorem taskView_place {i j : ℕ} (inside : j < test.perBlock * test.1.transferSize) :
    (taskView test rank rankOffset).place (i * (test.perBlock * test.1.transferSize) + j) =
      (i * (fileLayout test.1 rank rankOffset).2 + (fileLayout test.1 rank rankOffset).1) *
        (test.perBlock * test.1.transferSize) + j := by
  have quotient : (i * (test.perBlock * test.1.transferSize) + j) /
      (test.perBlock * test.1.transferSize) = i := by
    rw [Nat.mul_comm, Nat.mul_add_div (by omega), Nat.div_eq_of_lt inside, Nat.add_zero]
  have remainder : (i * (test.perBlock * test.1.transferSize) + j) %
      (test.perBlock * test.1.transferSize) = j := by
    rw [Nat.mul_comm, Nat.mul_add_mod, Nat.mod_eq_of_lt inside]
  have tile : (taskView test rank rankOffset).disp = 0 ∧ (taskView test rank rankOffset).extent =
      test.perBlock * (fileLayout test.1 rank rankOffset).2 * test.1.transferSize := ⟨rfl, rfl⟩
  rw [FileView.place, tile.1, taskView_places, tile.2, List.length_range', quotient, remainder,
    List.getD_eq_getElem?_getD, List.getElem?_range' inside, Option.getD_some]
  ring

/-! ### The transfers -/

/-- The offsets of a task, by segment and transfer of a block. -/
theorem exists_of_mem_sequential {offset : ℕ}
    (listed : offset ∈ getOffsetArraySequential test.1 ((rank + rankOffset) % test.1.numTasks)) :
    ∃ i, ∃ j < test.perBlock, offset =
      (i * (fileLayout test.1 rank rankOffset).2 + (fileLayout test.1 rank rankOffset).1) *
        (test.perBlock * test.1.transferSize) + j * test.1.transferSize := by
  rw [getOffsetArraySequential_eq] at listed
  obtain ⟨i, -, inBlock⟩ := List.mem_flatMap.mp listed
  obtain ⟨j, inside, rfl⟩ := List.mem_map.mp inBlock
  refine ⟨i, j, List.mem_range.mp inside, ?_⟩
  rw [fileLayout]
  split <;> ring

/-- The seek goes to the transfer of the view. -/
theorem seekOffset_eq {i j : ℕ} (inside : j < test.perBlock) :
    seekOffset test.1 rank rankOffset
        ((i * (fileLayout test.1 rank rankOffset).2 + (fileLayout test.1 rank rankOffset).1) *
          (test.perBlock * test.1.transferSize) + j * test.1.transferSize) =
      i * test.perBlock + j := by
  have positive := test.transferSize_pos
  have below : j * test.1.transferSize < test.perBlock * test.1.transferSize :=
    Nat.mul_lt_mul_of_pos_right inside positive
  have before := fileLayout_lt test rank rankOffset
  change (if _ then _ else test.perBlock * (_ / (test.1.blockSize *
    (fileLayout test.1 rank rankOffset).2)) + (_ % (test.1.blockSize *
      (fileLayout test.1 rank rankOffset).2) - (fileLayout test.1 rank rankOffset).1 *
        test.1.blockSize) / test.1.transferSize) = _
  rw [blockSize_eq]
  split
  case isTrue own =>
    have split : (i * (fileLayout test.1 rank rankOffset).2 +
        (fileLayout test.1 rank rankOffset).1) * (test.perBlock * test.1.transferSize) +
        j * test.1.transferSize = (i * test.perBlock + j) * test.1.transferSize := by
      rw [fileLayout, if_pos own]
      ring
    rw [split, Nat.mul_div_cancel _ positive]
  case isFalse =>
    generalize fileLayout test.1 rank rankOffset = layout at before
    obtain ⟨factor, tasks⟩ := layout
    dsimp only at before ⊢
    -- The rest of a segment before the transfer.
    have within : factor * (test.perBlock * test.1.transferSize) + j * test.1.transferSize <
        test.perBlock * test.1.transferSize * tasks := by
      have := Nat.mul_le_mul_right (test.perBlock * test.1.transferSize) (Nat.succ_le_of_lt before)
      rw [Nat.succ_mul] at this
      rw [Nat.mul_comm _ tasks]
      omega
    have split : (i * tasks + factor) * (test.perBlock * test.1.transferSize) +
        j * test.1.transferSize = test.perBlock * test.1.transferSize * tasks * i +
          (factor * (test.perBlock * test.1.transferSize) + j * test.1.transferSize) := by
      ring
    rw [split, Nat.mul_add_div (by omega), Nat.div_eq_of_lt within, Nat.add_zero, Nat.mul_add_mod,
      Nat.mod_eq_of_lt within, Nat.add_sub_cancel_left, Nat.mul_div_cancel _ positive,
      Nat.mul_comm]

theorem place_seekOffset {offset : ℕ}
    (listed : offset ∈ getOffsetArraySequential test.1 ((rank + rankOffset) % test.1.numTasks))
    {k : ℕ} (below : k < test.1.transferSize) :
    (taskView test rank rankOffset).place
      (seekOffset test.1 rank rankOffset offset * test.1.transferSize + k) = offset + k := by
  obtain ⟨i, j, inside, same⟩ := exists_of_mem_sequential listed
  have fits : j * test.1.transferSize + k < test.perBlock * test.1.transferSize := by
    have := Nat.mul_le_mul_right test.1.transferSize (Nat.succ_le_of_lt inside)
    rw [Nat.succ_mul] at this
    omega
  rw [same, seekOffset_eq inside, Nat.add_mul, Nat.mul_assoc, Nat.add_assoc, taskView_place fits,
    Nat.add_assoc]

/-- A transfer of a task. -/
structure Transfer where
  rank : ℕ
  offset : ℕ
  buffer : List UInt8

/-- The contents of a file after writes of several tasks. -/
def writeAll (test : Param) (rankOffset : ℕ) (useFileView : Bool) (transfers : List Transfer)
    (content : List UInt8) : Option (List UInt8) :=
  transfers.foldlM (fun content transfer =>
    mpiioWrite test transfer.rank rankOffset useFileView transfer.offset transfer.buffer content)
    content

/-- A transfer of a task with a view or without. -/
theorem mpiioXfer_eq (sized : test.1.transferSize < 2 ^ 31)
    (fits : test.perBlock * (if test.1.filePerProc then 1 else test.1.numTasks) < 2 ^ 31)
    {offset : ℕ} (listed : offset ∈
      getOffsetArraySequential test.1 ((rank + rankOffset) % test.1.numTasks))
    (useFileView : Bool) (content : List UInt8) :
    (∀ buffer : List UInt8, buffer.length = test.1.transferSize →
      mpiioWrite test.1 rank rankOffset useFileView offset buffer content =
        some (pwrite content offset buffer)) ∧
    mpiioRead test.1 rank rankOffset useFileView offset content =
      some (pread content offset test.1.transferSize) := by
  cases useFileView with
  | true =>
      have opened := mpiioOpen_eq sized (fileLayout_snd test rank rankOffset ▸ fits)
      refine ⟨fun buffer whole => ?_, ?_⟩
      · simp only [mpiioWrite, opened, if_true, Option.bind_eq_bind, Option.bind_some,
          transferType_size]
        rw [List.take_of_length_le whole.le]
        exact congrArg some (FileView.write_eq content fun k below =>
          place_seekOffset listed (whole ▸ below))
      · simp only [mpiioRead, opened, if_true, Option.bind_eq_bind, Option.bind_some,
          transferType_size]
        exact congrArg some (FileView.read_eq content fun k => place_seekOffset listed)
  | false =>
      have count : (Int32.ofNat test.1.transferSize).toInt.toNat = test.1.transferSize := by
        rw [CheckedInt.toInt_ofNat sized, Int.toNat_natCast]
      refine ⟨fun buffer whole => ?_, ?_⟩
      · simp only [mpiioWrite, Bool.false_eq_true, if_false, CheckedInt.ofNat_nonneg sized, if_true,
          count, List.take_of_length_le whole.le]
      · simp only [mpiioRead, Bool.false_eq_true, if_false, CheckedInt.ofNat_nonneg sized, if_true,
          count]

/-- Through their views the tasks write and read what they do at the offsets, whatever transfers
they make and in which order: all calls succeed and each moves its transfer. -/
theorem fileView_transfers (test : Test) (random : ℕ → ℕ) (sequential : test.1.randomOffset = false)
    (sized : test.1.transferSize < 2 ^ 31)
    (fits : test.perBlock * (if test.1.filePerProc then 1 else test.1.numTasks) < 2 ^ 31)
    {transfers : List Transfer}
    (own : ∀ transfer ∈ transfers, transfer.buffer.length = test.1.transferSize ∧
      transfer.offset ∈ offsetArray test.1 random
        ((transfer.rank + rankOffset) % test.1.numTasks)) (content : List UInt8)
    (useFileView : Bool) :
    writeAll test.1 rankOffset useFileView transfers content =
      some (transfers.foldl (fun content transfer =>
        pwrite content transfer.offset transfer.buffer) content) ∧
    ∀ transfer ∈ transfers, ∀ content,
      mpiioRead test.1 transfer.rank rankOffset useFileView transfer.offset content =
        some (pread content transfer.offset test.1.transferSize) := by
  rw [offsetArray, sequential] at own
  refine ⟨?_, fun transfer inside content =>
    (mpiioXfer_eq sized fits (own transfer inside).2 useFileView content).2⟩
  rw [writeAll]
  induction transfers generalizing content with
  | nil => rfl
  | cons transfer rest ih =>
      obtain ⟨whole, listed⟩ := own transfer List.mem_cons_self
      rw [List.foldlM_cons, (mpiioXfer_eq sized fits listed useFileView content).1 _ whole]
      exact ih (fun other inside => own other (List.mem_cons_of_mem _ inside)) _

/-- Each of two tasks writes its block of the second segment. -/
def pairTransfers : List Transfer :=
  [⟨1, 24, List.replicate 8 1⟩, ⟨0, 16, List.replicate 8 2⟩]

theorem fileView_transfers_pair :
    writeAll (pairTest false false 0) 0 true pairTransfers [] =
      writeAll (pairTest false false 0) 0 false pairTransfers [] := by
  have moved : ∀ useFileView, writeAll (pairTest false false 0) 0 useFileView pairTransfers [] =
      some _ := fun useFileView => (fileView_transfers ⟨pairTest false false 0, rfl⟩ id rfl
    (by decide) (by decide) (by decide) [] useFileView).1
  rw [moved true, moved false]

end HandsOn.Ior
