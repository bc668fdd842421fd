import Mathlib.Algebra.Order.Ring.Rat
import HandsOn.Life.MeshLife
import HandsOn.Life.RowBlockOutline

/-!
# The initial matrix

Each program seeds the generator anew for every row and draws a number for every cell. The
program on a mesh first draws the numbers of the cells to the left of its patch. The seeds
and the draws depend on the global row and column only, so that every distribution starts
from the same grid.
-/

namespace HandsOn.Life

open HandsOn.Mpi HandsOn.Semantics

/-- The numbers that `drand48` returns one after the other, for each seed. -/
abbrev Rand48 := ℕ → ℕ → ℚ

/-- The matrices of a process, and the numbers that its next draws return. -/
structure Drawing where
  mem : Mem
  numbers : ℕ → ℚ

namespace Drawing

/-- `srand48` -/
def srand48 (rand : Rand48) (seed : ℕ) (state : Drawing) : Drawing :=
  { state with numbers := rand seed }

/-- What a call of `drand48` leaves; it returns `state.numbers 0`. -/
def drand48 (state : Drawing) : Drawing :=
  { state with numbers := fun draw => state.numbers (draw + 1) }

/-- Set a cell from the next number. -/
def setDrawn (cols row col : ℕ) (state : Drawing) : Drawing :=
  let value := if state.numbers 0 > 1 / 2 then born else dies
  { state.drand48 with mem := Function.update state.mem (entry cols .mdata row col) value }

/-- Initialize a row, whose first cell is in column `gFirstCol` of the grid. -/
def drawRow (rand : Rand48) (seed cols gFirstCol row : ℕ) (state : Drawing) : Drawing :=
  let state := state.srand48 rand seed
  let state := forLoop 1 gFirstCol (fun _ => drand48) state
  forLoop 1 (cols + 1) (setDrawn cols row) state

end Drawing

/-- Initialize the boundaries of both matrices. -/
def initBoundaries (rows cols : ℕ) (mem : Mem) : Mem :=
  let mem := forLoop 0 (cols + 2) (fun j mem =>
    setDies cols .mdata 0 j (setDies cols .mdata (rows + 1) j
      (setDies cols .tdata 0 j (setDies cols .tdata (rows + 1) j mem)))) mem
  forLoop 0 (rows + 2) (fun i mem =>
    setDies cols .mdata i 0 (setDies cols .mdata i (cols + 1)
      (setDies cols .tdata i 0 (setDies cols .tdata i (cols + 1) mem)))) mem

/-- Initialize the life matrix, where the seed depends on the row. -/
def initMatrix (rand : Rand48) (rows cols : ℕ) (seed : ℕ → ℕ) (gFirstCol : ℕ)
    (numbers : ℕ → ℚ) (mem : Mem) : Mem :=
  (forLoop 1 (rows + 1) (fun i => Drawing.drawRow rand (seed i) cols gFirstCol i)
    ⟨initBoundaries rows cols mem, numbers⟩).mem

/-- The loop of `USE_FIRST_TOUCH`, its rows one after the other. -/
def firstTouch (rows cols : ℕ) (mem : Mem) : Mem :=
  forLoop 1 (rows + 1) (fun i => forLoop 1 (cols + 1) fun j mem =>
    setDies cols .mdata i j (setDies cols .tdata i j mem)) mem

/-- The initial matrices of `mlife.c`. -/
def mlifeInit (rand : Rand48) (rows cols : ℕ) {nprocs : ℕ} (rank : Fin nprocs) :
    (ℕ → ℚ) → Mem → Mem :=
  initMatrix rand (rowsOf rows rank) cols (fun i => 1000 ^^^ (i + offsetOf rows rank)) 1

/-- The initial matrices of `mlifeomp.c`. -/
def mlifeompInit (useFirstTouch : Bool) (rand : Rand48) (rows cols : ℕ) {nprocs : ℕ}
    (rank : Fin nprocs) (numbers : ℕ → ℚ) (mem : Mem) : Mem :=
  initMatrix rand (rowsOf rows rank) cols (fun i => 1000 ^^^ (i + offsetOf rows rank)) 1 numbers
    (if useFirstTouch then firstTouch (rowsOf rows rank) cols mem else mem)

/-- The initial matrices of `mlife2d.c`. -/
def mlife2dInit (rand : Rand48) (gRows gCols : ℕ) {nprocs : ℕ} (dims : Dims nprocs)
    (rank : Fin nprocs) : (ℕ → ℚ) → Mem → Mem :=
  let patch := dims.meshDecomp gRows gCols rank
  initMatrix rand patch.lRows patch.lCols (fun i => 1000 ^^^ (i + patch.gFirstRow - 1))
    patch.gFirstCol

/-- The cell of a row and a column of the whole grid. -/
def initialGrid (rand : Rand48) : Grid :=
  fun row col => decide (rand (1000 ^^^ row) (col - 1) > 1 / 2)

/-! ### What the loops draw -/

theorem Drawing.numbers_skip {gFirstCol : ℕ} (first : 1 ≤ gFirstCol) (state : Drawing) :
    (forLoop 1 gFirstCol (fun _ => drand48) state).mem = state.mem ∧
      ∀ draw, (forLoop 1 gFirstCol (fun _ => drand48) state).numbers draw =
        state.numbers (gFirstCol - 1 + draw) := by
  refine forLoop_counts (P := fun col (after : Drawing) => after.mem = state.mem ∧
    ∀ draw, after.numbers draw = state.numbers (col - 1 + draw)) first ⟨rfl, ?_⟩ ?_
  · intro draw
    rw [Nat.sub_self, Nat.zero_add]
  · rintro col after above _ ⟨sameMem, drawn⟩
    refine ⟨sameMem, fun draw => ?_⟩
    rw [drand48, drawn]
    congr 1
    omega

/-- A row is assigned the numbers from that of its first cell on. -/
theorem Drawing.drawRow_mem (rand : Rand48) (seed : ℕ) {cols gFirstCol : ℕ} (row : ℕ)
    (first : 1 ≤ gFirstCol) (state : Drawing) :
    (drawRow rand seed cols gFirstCol row state).mem =
      forLoop 1 (cols + 1) (fun j mem => Function.update mem (entry cols .mdata row j)
        (cell (decide (rand seed (j + gFirstCol - 1 - 1) > 1 / 2)))) state.mem := by
  obtain ⟨sameMem, skipped⟩ := numbers_skip first (state.srand48 rand seed)
  refine (forLoop_simulates (R := fun col (after : Drawing) mem => after.mem = mem ∧
    ∀ draw, after.numbers draw = rand seed (col + gFirstCol - 1 - 1 + draw))
    (Nat.le_add_left 1 cols) ⟨sameMem, ?_⟩ ?_).1
  · intro draw
    rw [skipped, Nat.add_sub_cancel_left]
    rfl
  · rintro col after mem above _ ⟨rfl, drawn⟩
    constructor
    · simp only [setDrawn, drawn, Nat.add_zero, cell, decide_eq_true_eq]
    · intro draw
      simp only [setDrawn, drand48, drawn]
      congr 1
      omega

/-- The loops fill the matrix with the cells that the seeds and the first column select. -/
theorem initMatrix_eq (rand : Rand48) (rows cols : ℕ) (seed : ℕ → ℕ) {gFirstCol : ℕ}
    (first : 1 ≤ gFirstCol) (numbers : ℕ → ℚ) (mem : Mem) :
    initMatrix rand rows cols seed gFirstCol numbers mem = initialise rows cols
      (fun i j => cell (decide (rand (seed i) (j + gFirstCol - 1 - 1) > 1 / 2))) mem := by
  refine forLoop_simulates (R := fun _ (state : Drawing) after => state.mem = after)
    (Nat.le_add_left 1 rows) rfl ?_
  rintro row state after _ _ rfl
  exact Drawing.drawRow_mem rand (seed row) row first state

/-- The rows of the ranks of `mlife.c` are those of one grid. -/
theorem initialRows_mlife (rand : Rand48) (rows cols : ℕ) {nprocs : ℕ}
    (numbers : Fin nprocs → ℕ → ℚ) (mem : Fin nprocs → Mem) :
    InitialRows rows cols (initialGrid rand) fun rank =>
      mlifeInit rand rows cols rank (numbers rank) (mem rank) := by
  refine fun rank => ⟨mem rank, (initMatrix_eq rand _ cols _ (Nat.le_refl 1) _ _).trans ?_⟩
  simp only [initialGrid, Nat.add_sub_cancel, Nat.add_comm]

theorem initialRows_mlifeomp (useFirstTouch : Bool) (rand : Rand48) (rows cols : ℕ) {nprocs : ℕ}
    (numbers : Fin nprocs → ℕ → ℚ) (mem : Fin nprocs → Mem) :
    InitialRows rows cols (initialGrid rand) fun rank =>
      mlifeompInit useFirstTouch rand rows cols rank (numbers rank) (mem rank) :=
  fun rank => ⟨_, (initialRows_mlife rand rows cols numbers
    (fun rank => if useFirstTouch then firstTouch (rowsOf rows rank) cols (mem rank) else mem rank)
    rank).choose_spec⟩

/-- The patches of the ranks of `mlife2d.c` are those of the same grid. -/
theorem initialPatches_mlife2d (rand : Rand48) (gRows gCols : ℕ) {nprocs : ℕ} (dims : Dims nprocs)
    (numbers : Fin nprocs → ℕ → ℚ) (mem : Fin nprocs → Mem) :
    dims.InitialPatches gRows gCols (initialGrid rand) fun rank =>
      mlife2dInit rand gRows gCols dims rank (numbers rank) (mem rank) := by
  intro rank
  have first : 1 ≤ (dims.meshDecomp gRows gCols rank).gFirstCol := Nat.le_add_right 1 _
  exact ⟨mem rank, initMatrix_eq rand _ _ _ first _ _⟩

/-! ### The programs and their ranks -/

/-- A program with the number of its processes and, on a mesh, their grid. -/
inductive Launch where
  | mlife (nprocs : ℕ) (positive : 0 < nprocs)
  | mlifeomp (nprocs : ℕ) (positive : 0 < nprocs) (useFirstTouch : Bool)
  | mlife2d (nprocs : ℕ) (positive : 0 < nprocs) (dims : Dims nprocs)

/-- The part of the grid that a rank owns. -/
structure Part where
  rowsBefore : ℕ
  rows : ℕ
  colsBefore : ℕ
  cols : ℕ

/-- The cell of the grid is in the part. -/
def Part.Holds (part : Part) (row col : ℕ) : Prop :=
  (part.rowsBefore < row ∧ row ≤ part.rowsBefore + part.rows) ∧
    part.colsBefore < col ∧ col ≤ part.colsBefore + part.cols

instance (part : Part) (row col : ℕ) : Decidable (part.Holds row col) :=
  inferInstanceAs (Decidable ((_ ∧ _) ∧ _ ∧ _))

namespace Launch

def nprocs : Launch → ℕ
  | .mlife nprocs _ | .mlifeomp nprocs _ _ | .mlife2d nprocs _ _ => nprocs

/-- The part of a rank. -/
def part (rows cols : ℕ) : (launch : Launch) → Fin launch.nprocs → Part
  | .mlife _ _, rank | .mlifeomp _ _ _, rank => ⟨offsetOf rows rank, rowsOf rows rank, 0, cols⟩
  | .mlife2d _ _ dims, rank =>
      let patch := dims.meshDecomp rows cols rank
      ⟨patch.gFirstRow - 1, patch.lRows, patch.gFirstCol - 1, patch.lCols⟩

/-- The initial matrices of a rank, from what its generator and its allocations held. -/
def init (rand : Rand48) (rows cols : ℕ) :
    (launch : Launch) → Fin launch.nprocs → (ℕ → ℚ) → Mem → Mem
  | .mlife _ _, rank => mlifeInit rand rows cols rank
  | .mlifeomp _ _ useFirstTouch, rank => mlifeompInit useFirstTouch rand rows cols rank
  | .mlife2d _ _ dims, rank => mlife2dInit rand rows cols dims rank

/-- What the interiors of the ranks' matrices hold for a cell of the grid. -/
def cells (rows cols : ℕ) (launch : Launch) (mem : Fin launch.nprocs → Mem) (row col : ℕ) :
    List Int :=
  (List.finRange launch.nprocs).filterMap fun rank =>
    let part := launch.part rows cols rank
    if part.Holds row col then
      some (view part.cols .mdata (mem rank) (row - part.rowsBefore) (col - part.colsBefore))
    else none

variable {rows cols : ℕ} {launch : Launch}

theorem holds_inside {rank : Fin launch.nprocs} {row col : ℕ}
    (holds : (launch.part rows cols rank).Holds row col) : Inside rows cols row col := by
  cases launch with
  | mlife nprocs positive | mlifeomp nprocs positive useFirstTouch =>
      have ends := offsetOf_add_rowsOf_le rows rank
      simp only [Part.Holds, part] at holds
      unfold Inside
      omega
  | mlife2d nprocs positive dims =>
      have inPatch : InPatch dims rows cols rank row col := by
        simp only [Part.Holds, part, Dims.meshDecomp, firstOf_eq] at holds
        simp only [InPatch, Dims.meshDecomp, firstOf_eq]
        omega
      exact inPatch.inside

/-- Every cell is in the part of one rank. -/
theorem exists_holds (launch : Launch) {row col : ℕ} (inside : Inside rows cols row col) :
    ∃ rank, (launch.part rows cols rank).Holds row col ∧
      ∀ other, (launch.part rows cols other).Holds row col → other = rank := by
  cases launch with
  | mlife nprocs positive | mlifeomp nprocs positive useFirstTouch =>
      obtain ⟨⟨firstRow, lastRow⟩, firstCol, lastCol⟩ := inside
      obtain ⟨rank, inside, starts, ends⟩ := exists_block positive (show row - 1 < rows by omega)
      refine ⟨⟨rank, inside⟩, ⟨⟨?_, ?_⟩, firstCol, ?_⟩, ?_⟩
      · exact (show myrowoffset rows rank nprocs < row by omega)
      · exact (show row ≤ myrowoffset rows rank nprocs + myrows rows rank nprocs by omega)
      · exact lastCol.trans (Nat.le_add_left _ _)
      · rintro other ⟨⟨starts', ends'⟩, _⟩
        have starts' : myrowoffset rows other nprocs < row := starts'
        have ends' : row ≤ myrowoffset rows other nprocs + myrows rows other nprocs := ends'
        exact Fin.ext (block_unique (by omega) (by omega) starts ends)
  | mlife2d nprocs positive dims =>
      have holds_iff : ∀ rank : Fin nprocs,
          (part rows cols (.mlife2d nprocs positive dims) rank).Holds row col ↔
            InPatch dims rows cols rank row col := by
        intro rank
        simp only [Part.Holds, part, InPatch, Dims.meshDecomp, firstOf_eq]
        omega
      obtain ⟨rank, inPatch⟩ := exists_inPatch positive inside
      exact ⟨rank, (holds_iff rank).mpr inPatch, fun other holds =>
        InPatch.unique ((holds_iff other).mp holds) inPatch⟩

/-- The initial matrix of a rank is its part of the grid. -/
theorem exists_init (rand : Rand48) (rows cols : ℕ) (launch : Launch)
    (rank : Fin launch.nprocs) (numbers : ℕ → ℚ) (mem : Mem) :
    let part := launch.part rows cols rank
    ∃ allocated, launch.init rand rows cols rank numbers mem = initialise part.rows part.cols
      (fun i j => cell (initialGrid rand (part.rowsBefore + i) (part.colsBefore + j)))
      allocated := by
  cases launch with
  | mlife nprocs positive =>
      obtain ⟨allocated, same⟩ :=
        initialRows_mlife rand rows cols (fun _ => numbers) (fun _ => mem) rank
      refine ⟨allocated, same.trans ?_⟩
      simp only [part, Nat.zero_add]
  | mlifeomp nprocs positive useFirstTouch =>
      obtain ⟨allocated, same⟩ := initialRows_mlifeomp useFirstTouch rand rows cols
        (fun _ => numbers) (fun _ => mem) rank
      refine ⟨allocated, same.trans ?_⟩
      simp only [part, Nat.zero_add]
  | mlife2d nprocs positive dims =>
      obtain ⟨allocated, same⟩ :=
        initialPatches_mlife2d rand rows cols dims (fun _ => numbers) (fun _ => mem) rank
      refine ⟨allocated, same.trans ?_⟩
      simp only [part, Dims.meshDecomp, firstOf_eq, Nat.add_sub_cancel]
      congr! 5 <;> omega

/-- A rank holds the cells of the grid in its part. -/
theorem view_init (rand : Rand48) {rank : Fin launch.nprocs} {row col : ℕ}
    (holds : (launch.part rows cols rank).Holds row col) (numbers : ℕ → ℚ) (mem : Mem) :
    let part := launch.part rows cols rank
    view part.cols .mdata (launch.init rand rows cols rank numbers mem) (row - part.rowsBefore)
      (col - part.colsBefore) = cell (initialGrid rand row col) := by
  obtain ⟨allocated, same⟩ := exists_init rand rows cols launch rank numbers mem
  generalize launch.part rows cols rank = part at holds same
  obtain ⟨⟨firstRow, lastRow⟩, firstCol, lastCol⟩ := holds
  have inside : Inside part.rows part.cols (row - part.rowsBefore) (col - part.colsBefore) := by
    unfold Inside
    omega
  calc
    _ = initialise part.rows part.cols _ allocated
        (entry part.cols .mdata (row - part.rowsBefore) (col - part.colsBefore)) :=
      congrFun same _
    _ = _ := initialise_interior inside _ _
    _ = _ := by rw [Nat.add_sub_cancel' firstRow.le, Nat.add_sub_cancel' firstCol.le]

theorem cells_init (rand : Rand48) (rows cols : ℕ) (launch : Launch)
    (numbers : Fin launch.nprocs → ℕ → ℚ) (mem : Fin launch.nprocs → Mem) (row col : ℕ) :
    launch.cells rows cols (fun rank => launch.init rand rows cols rank (numbers rank) (mem rank))
      row col = if Inside rows cols row col then [cell (initialGrid rand row col)] else [] := by
  split
  · next inside =>
      obtain ⟨rank, holds, unique⟩ := launch.exists_holds inside
      refine filterMap_eq_singleton (List.nodup_finRange _) (List.mem_finRange rank) ?_ ?_
      · exact (if_pos holds).trans (congrArg some (view_init rand holds _ _))
      · exact fun other different => if_neg fun elsewhere => different (unique other elsewhere)
  · next outside =>
      exact List.filterMap_eq_nil_iff.mpr fun rank _ => if_neg fun holds =>
        outside (holds_inside holds)

end Launch

/-- Any two programs start from the same grid, whatever their process counts and process
grids: for every cell of the grid one rank of each holds it, and both hold the same. -/
theorem initial_grid_same (rand : Rand48) (rows cols : ℕ) (first second : Launch)
    (numbers : Fin first.nprocs → ℕ → ℚ) (mem : Fin first.nprocs → Mem)
    (numbers' : Fin second.nprocs → ℕ → ℚ) (mem' : Fin second.nprocs → Mem) (row col : ℕ) :
    let held := first.cells rows cols
      (fun rank => first.init rand rows cols rank (numbers rank) (mem rank)) row col
    held = second.cells rows cols
      (fun rank => second.init rand rows cols rank (numbers' rank) (mem' rank)) row col ∧
    held.length = if Inside rows cols row col then 1 else 0 := by
  intro held
  have drawn := first.cells_init rand rows cols numbers mem row col
  refine ⟨drawn.trans (second.cells_init rand rows cols numbers' mem' row col).symm, ?_⟩
  rw [show held = _ from drawn]
  split <;> rfl

end HandsOn.Life
