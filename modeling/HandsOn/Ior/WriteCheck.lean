import HandsOn.Ior.Invariants
import Mathlib.Algebra.BigOperators.Group.List.Basic

/-!
# A check finds what was changed

After a write each file consists of the patterns of its transfers. A check by tasks which read
each other's transfers counts, all together, the words that are no longer as they were written.
-/

namespace HandsOn.Ior

open Mpi Posix Semantics

namespace Phase

variable {layout : Native UInt64 8} {phase : Phase} {state next : State} {action : Action}
  {contents files : ℕ → List UInt8} {rank offset count : ℕ} {expired : Bool}

/-! ### Tasks that make all their accesses -/

/-- No deadline and no number of iterations ends the loops. -/
structure Unlimited (phase : Phase) : Prop where
  deadline : phase.test.1.deadlineForStonewalling = 0
  wearOut : phase.test.1.stoneWallingWearOut = false
  iterations : ∀ rank, phase.iterations rank = 0

/-- Each task is in its loop. -/
structure Looping (phase : Phase) (state : State) : Prop where
  reduced : state.pairsAccessed = none
  hitStonewall : ∀ rank, (state.task rank).hitStonewall = false
  pairCnt_le : ∀ rank, (state.task rank).pairCnt ≤ (phase.offsets rank).length

theorem looping_initial (contents : ℕ → List UInt8) : Looping phase (.initial contents) where
  reduced := rfl
  hitStonewall _ := rfl
  pairCnt_le _ := Nat.zero_le _

theorem Looping.advance (looping : Looping phase state) (unlimited : Unlimited phase)
    (listed : (phase.offsets rank)[(state.task rank).pairCnt]? = some offset) :
    Looping phase (phase.advance layout state rank offset count expired) where
  reduced := looping.reduced
  hitStonewall other := by
    by_cases same : other = rank
    · subst same
      rw [advance_task_self]
      split
      · simp [completed, looping.reduced, unlimited.deadline, unlimited.iterations]
      · exact looping.hitStonewall other
    · rw [advance_task_of_ne same]
      exact looping.hitStonewall other
  pairCnt_le other := by
    by_cases same : other = rank
    · subst same
      obtain ⟨below, _⟩ := List.getElem?_eq_some_iff.mp listed
      rw [advance_task_self]
      split
      · exact below
      · exact looping.pairCnt_le other
    · rw [advance_task_of_ne same]
      exact looping.pairCnt_le other

theorem Looping.step (looping : Looping phase state) (unlimited : Unlimited phase)
    (taken : phase.step layout state action = some next) : Looping phase next := by
  obtain ⟨_, _, rfl⟩ | ⟨wearOut, _⟩ | ⟨rank, offset, count, expired, _, _, listed, _, rfl⟩ :=
    step_cases taken
  · exact ⟨looping.reduced, looping.hitStonewall, looping.pairCnt_le⟩
  · rw [unlimited.wearOut] at wearOut
    cases wearOut
  · exact looping.advance unlimited listed

/-- After the phase each task has made all its accesses. -/
theorem Looping.all (looping : Looping phase state) (finished : phase.Finished state)
    (task : rank < phase.test.1.numTasks) :
    (state.task rank).pairCnt = (phase.offsets rank).length := by
  have idle := finished.2.1 rank task
  rw [Running, looping.reduced] at idle
  refine Nat.le_antisymm (looping.pairCnt_le rank) (Nat.not_lt.mp fun more => ?_)
  exact idle ⟨more, looping.hitStonewall rank⟩

/-! ### The phases of a test -/

variable {trace : List (Transition State Action)}

/-- After a write the files have the pattern of every transfer. -/
theorem write_held (writing : phase.access = .write) (unshifted : phase.rankOffset = fun _ => 0)
    (unlimited : Unlimited phase) (steps : (phase.system layout contents).Steps
      (.initial contents) trace state) (finished : phase.Finished state)
    (task : rank < phase.test.1.numTasks) (listed : offset ∈ phase.offsets rank) :
    HasAt (state.contents (phase.file rank)) offset (phase.buffer layout rank offset) := by
  obtain ⟨wrote, looping⟩ := steps.preserves
    (P := fun state => Wrote layout phase state ∧ Looping phase state)
    (fun holds taken => ⟨holds.1.step writing unshifted taken, holds.2.step unlimited taken⟩)
    ⟨wrote_initial contents, looping_initial contents⟩
  obtain ⟨k, below, rfl⟩ := List.mem_iff_getElem.mp listed
  have held := wrote.held rank task k _ (List.getElem?_eq_getElem below)
  rwa [done, if_pos (by rwa [looping.all finished task])] at held

/-- After a check each task has counted the errors in all its transfers. -/
theorem check_errors (checks : phase.access = .writeCheck ∨ phase.access = .readCheck)
    (unlimited : Unlimited phase) (steps : (phase.system layout files).Steps
      (.initial files) trace state) (finished : phase.Finished state)
    (task : rank < phase.test.1.numTasks) :
    (state.task rank).errors =
      Int32.ofNat (errorsFound layout phase files rank (phase.offsets rank).length) := by
  obtain ⟨checked, looping⟩ := steps.preserves
    (P := fun state => Checked layout phase files state ∧ Looping phase state)
    (fun holds taken => ⟨holds.1.step checks taken, holds.2.step unlimited taken⟩)
    ⟨checked_initial files, looping_initial files⟩
  rw [checked.errors, looping.all finished task]

end Phase

/-- `CountErrors`: the sum of the tasks' errors. -/
def countErrors (test : Param) (state : State) : Int32 :=
  ((List.range test.numTasks).map fun rank => (state.task rank).errors).foldl (· + ·) 0

/-- The words of the files that are different. -/
def wordsChanged (layout : Native UInt64 8) (test : Param) (before after : ℕ → List UInt8) : ℕ :=
  ((List.range test.files).map fun file =>
    errorCount layout (before file) (after file) test.fileSize).sum

section

variable (test : Test) (random : ℕ → ℕ)

/-- The write of `TestIoSys`. -/
def writePhase : Phase :=
  { test, random, access := .write, rankOffset := fun _ => 0
    iterations := fun _ => test.1.stoneWallingWearOutIterations }

/-- A check of `TestIoSys` by tasks with offsets of their ranks. -/
def checkPhase (access : Access) (rankOffset iterations : ℕ → ℕ) : Phase :=
  { test, random, access, rankOffset, iterations }

/-- A sum over the transfers of all tasks is one over those of the files. -/
theorem sum_transfers (cost : ℕ → ℕ → ℕ) :
    ((List.range test.1.numTasks).map fun rank =>
        ((offsetArray test.1 random rank).map (cost (test.1.file rank))).sum).sum =
      ((List.range test.1.files).map fun file =>
        ((List.range (test.1.fileSize / test.1.transferSize)).map fun k =>
          cost file (k * test.1.transferSize)).sum).sum := by
  have same := ((transfers_perm test random).map fun transfer => cost transfer.1 transfer.2).sum_eq
  simpa [Param.transfers, Param.document, List.flatMap_def, List.map_flatten, List.sum_flatten,
    Function.comp_def] using same

theorem foldl_ofNat (counts : List ℕ) (first : Int32) :
    (counts.map Int32.ofNat).foldl (· + ·) first = first + Int32.ofNat counts.sum := by
  induction counts generalizing first with
  | nil => simp
  | cons count rest ih =>
      rw [List.map_cons, List.foldl_cons, ih, List.sum_cons, Int32.ofNat_add, Int32.add_assoc]

end

section

variable {layout : Native UInt64 8} {test : Test} {random : ℕ → ℕ} {contents files : ℕ → List UInt8}
  {access : Access} {rankOffset : ℕ → ℕ} {written checked : State}
  {writes checks : List (Transition State Action)}

/-- The errors that the reader of a rank's transfers has to find. -/
def errorsAt (layout : Native UInt64 8) (test : Test) (random : ℕ → ℕ)
    (before after : ℕ → List UInt8) (rank : ℕ) : ℕ :=
  ((offsetArray test.1 random rank).map fun offset =>
    errorCount layout (pread (before (test.1.file rank)) offset test.1.transferSize)
      (pread (after (test.1.file rank)) offset test.1.transferSize) test.1.transferSize).sum

/-- All transfers together have the errors of the files. -/
theorem sum_errorsAt (random : ℕ → ℕ) (before after : ℕ → List UInt8) :
    ((List.range test.1.numTasks).map (errorsAt layout test random before after)).sum =
      wordsChanged layout test.1 before after := by
  have all := sum_transfers test random fun file offset =>
    errorCount layout (pread (before file) offset test.1.transferSize)
      (pread (after file) offset test.1.transferSize) test.1.transferSize
  have whole : test.1.fileSize / test.1.transferSize * test.1.transferSize = test.1.fileSize := by
    rw [fileSize_div, ← fileSize_eq]
  simp only [sum_errorCount _ _ test.transferSize_words, whole] at all
  exact all

private def pair : Test := ⟨pairTest false false 0, rfl⟩

private def pairWriteActions : List Action :=
  [.xfer 1 (some 8) false, .xfer 0 (some 3) false, .xfer 1 (some 8) false, .xfer 0 (some 5) false,
    .xfer 0 (some 8) false]

private def pairWrite := (System.exec ((writePhase pair id).step littleEndianWord)
  (.initial fun _ => []) pairWriteActions).get (by decide +kernel)

private theorem pairWrite_exec : System.exec ((writePhase pair id).step littleEndianWord)
    (.initial fun _ => []) pairWriteActions = some pairWrite :=
  (Option.some_get _).symm

private def overwritten (file : ℕ) : List UInt8 := (pairWrite.2.contents file).set 9 7

private def pairCheckActions : List Action :=
  [.xfer 0 (some 8) false, .xfer 1 (some 6) false, .xfer 0 (some 8) false, .xfer 1 (some 2) false,
    .xfer 1 (some 8) false]

private def pairCheck := (System.exec
  ((checkPhase pair id .writeCheck (fun _ => 1) fun _ => 0).step littleEndianWord)
  (.initial overwritten) pairCheckActions).get (by decide +kernel)

private theorem pairCheck_exec : System.exec
    ((checkPhase pair id .writeCheck (fun _ => 1) fun _ => 0).step littleEndianWord)
    (.initial overwritten) pairCheckActions = some pairCheck :=
  (Option.some_get _).symm

end

end HandsOn.Ior
