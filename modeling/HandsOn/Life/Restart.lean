import HandsOn.Life.RowBlockLife

/-!
# Checkpoints of a restarted run

`life` counts its iterations from zero, and numbers its checkpoints by that count, whether it
starts from an initial grid or from a checkpoint. A restarted run writes its checkpoints over
those of the run that it continues.
-/

namespace HandsOn.Life

open HandsOn.Mpi HandsOn.Semantics

/-! ### Generations of generations -/

/-- A grid that agrees with a generation inside continues with the next ones. -/
theorem Grid.generation_add {rows cols n : ℕ} {grid restored : Grid}
    (same : restored.restrict rows cols = grid.generation rows cols n) (k : ℕ) :
    restored.generation rows cols k = grid.generation rows cols (n + k) := by
  induction k with
  | zero => exact same
  | succ k ih => rw [Grid.generation, ih, ← Nat.add_assoc, Grid.generation]

/-- Equal generations have equal successors. -/
theorem Grid.generation_congr {rows cols first second : ℕ} {grid : Grid}
    (same : grid.generation rows cols first = grid.generation rows cols second) (k : ℕ) :
    grid.generation rows cols (first + k) = grid.generation rows cols (second + k) := by
  induction k with
  | zero => exact same
  | succ k ih => rw [← Nat.add_assoc, ← Nat.add_assoc, Grid.generation, ih, Grid.generation]

theorem cell_inj {alive alive' : Bool} : cell alive = cell alive' ↔ alive = alive' := by
  cases alive <;> cases alive' <;> decide

/-- The interior of a grid, row by row. -/
def gridRows (rows cols : ℕ) (grid : Grid) : List (List Int) :=
  (List.range' 1 rows).map fun row => (List.range' 1 cols).map fun col => cell (grid row col)

/-- The rows of two grids are equal where the grids agree inside. -/
theorem gridRows_inj {rows cols : ℕ} {grid grid' : Grid} :
    gridRows rows cols grid = gridRows rows cols grid' ↔
      grid.restrict rows cols = grid'.restrict rows cols := by
  constructor
  · intro same
    ext row col
    by_cases inside : Inside rows cols row col
    · rw [Grid.restrict_inside inside, Grid.restrict_inside inside]
      obtain ⟨⟨firstRow, lastRow⟩, firstCol, lastCol⟩ := inside
      have row_same := List.map_inj_left.mp same row
        (List.mem_range'_1.mpr ⟨firstRow, by omega⟩)
      exact cell_inj.mp (List.map_inj_left.mp row_same col
        (List.mem_range'_1.mpr ⟨firstCol, by omega⟩))
    · rw [Grid.restrict_outside inside, Grid.restrict_outside inside]
  · intro same
    refine List.map_congr_left fun row listed => List.map_congr_left fun col listed' => ?_
    rw [List.mem_range'_1] at listed listed'
    have inside : Inside rows cols row col := ⟨⟨listed.1, by omega⟩, listed'.1, by omega⟩
    rw [← Grid.restrict_inside inside grid, same, Grid.restrict_inside inside]

theorem Grid.restrict_generation {rows cols : ℕ} (grid : Grid) (k : ℕ) :
    (grid.generation rows cols k).restrict rows cols = grid.generation rows cols k := by
  ext row col
  by_cases inside : Inside rows cols row col
  · rw [Grid.restrict_inside inside]
  · rw [Grid.restrict_outside inside, Grid.generation_outside inside]

theorem serialRows_eq (rows cols : ℕ) (grid : Grid) (k : ℕ) :
    serialRows rows cols grid k = gridRows rows cols (grid.generation rows cols k) :=
  rfl

/-- Generations are equal exactly if their rows are. -/
theorem serialRows_inj {rows cols k k' : ℕ} {grid grid' : Grid} :
    serialRows rows cols grid k = serialRows rows cols grid' k' ↔
      grid.generation rows cols k = grid'.generation rows cols k' := by
  rw [serialRows_eq, serialRows_eq, gridRows_inj, Grid.restrict_generation,
    Grid.restrict_generation]

/-! ### Runs and their checkpoints -/

/-- The options of a run: `opt_iter`, and `opt_restart_iter`, where `none` is -1. -/
structure Options where
  iter : ℕ
  restartIter : Option ℕ

/-- A checkpoint file: the header, and the matrix. -/
structure CheckpointFile where
  rows : ℕ
  cols : ℕ
  iter : ℕ
  matrix : List (List Int)
deriving DecidableEq

/-- The files `prefix-<iter>.chkpt`. -/
abbrev Directory := ℕ → Option CheckpointFile

/-- The values of `k` in the main loop of `life`: they do not depend on `opt_restart_iter`. -/
def iterations (options : Options) : List ℕ := List.range options.iter

/-- `MLIFEIO_Checkpoint` with number `k`. -/
def saveCheckpoint (rows cols : ℕ) (matrix : ℕ → List (List Int)) (directory : Directory) (k : ℕ) :
    Directory :=
  Function.update directory k (some ⟨rows, cols, k, matrix k⟩)

/-- `grid` can be what `life` has in its matrix when the main loop begins: any initial grid, or
what `MLIFEIO_Restart` loads. -/
def Starts (rows cols : ℕ) (options : Options) (before : Directory) (grid : Grid) : Prop :=
  match options.restartIter with
  | none => True
  | some iter => ∃ file, before iter = some file ∧ file.rows = rows ∧ file.cols = cols ∧
      file.matrix = gridRows rows cols grid

/-- A run of `life` that starts with `grid` can turn the directory `before` into `after`:
the checkpoint of iteration `k` holds the matrices after it. -/
def Leaves (nprocs rows cols : ℕ) (exchange : RowExchange) (options : Options) (grid : Grid)
    (before after : Directory) : Prop :=
  Starts rows cols options before grid ∧ ∃ mem : ℕ → Fin nprocs → Mem,
    (∀ k ∈ iterations options, ∀ rank,
      exchange.Reaches rows cols options.iter grid rank (k + 1) (mem k rank)) ∧
    after = (iterations options).foldl
      (saveCheckpoint rows cols fun k => assembleRows rows cols (k + 1) (mem k)) before

variable {nprocs rows cols : ℕ} {exchange : RowExchange} {options : Options} {grid : Grid}
  {before after : Directory}

/-- A run writes the checkpoints of its iterations, and no others. -/
theorem foldl_saveCheckpoint (matrix : ℕ → List (List Int)) (before : Directory) (count k : ℕ) :
    (List.range count).foldl (saveCheckpoint rows cols matrix) before k =
      if k < count then some ⟨rows, cols, k, matrix k⟩ else before k := by
  induction count with
  | zero => rw [if_neg (Nat.not_lt_zero k), List.range_zero, List.foldl_nil]
  | succ count ih =>
      rw [List.range_succ, List.foldl_append, List.foldl_cons, List.foldl_nil, saveCheckpoint,
        Function.update_apply, ih]
      rcases Nat.lt_trichotomy k count with earlier | rfl | later
      · rw [if_neg earlier.ne, if_pos earlier, if_pos (Nat.lt_succ_of_lt earlier)]
      · rw [if_pos rfl, if_pos (Nat.lt_succ_self k)]
      · rw [if_neg later.ne', if_neg later.not_gt, if_neg (Nat.not_lt.mpr later)]

/-- Checkpoint `k` holds generation `k + 1` of the grid that the run starts with. -/
theorem Leaves.checkpoint (leaves : Leaves nprocs rows cols exchange options grid before after)
    (positive : 0 < nprocs) (k : ℕ) :
    after k = if k < options.iter then
      some ⟨rows, cols, k, serialRows rows cols grid (k + 1)⟩ else before k := by
  obtain ⟨_, mem, reaches, rfl⟩ := leaves
  rw [iterations, foldl_saveCheckpoint]
  split
  · rename_i inTime
    have listed : k ∈ iterations options := List.mem_range.mpr inTime
    rw [RowExchange.assembleRows_eq positive (reaches k listed)]
  · rfl

/-- A run that restarts from checkpoint `R` of an uninterrupted run continues with the
generations after it. -/
theorem Starts.generation {m R : ℕ} {restored : Grid}
    (loads : Starts rows cols ⟨m, some R⟩ after restored)
    (saved : after R = some ⟨rows, cols, R, serialRows rows cols grid (R + 1)⟩) (k : ℕ) :
    restored.generation rows cols k = grid.generation rows cols (R + 1 + k) := by
  obtain ⟨file, here, _, _, matrix⟩ := loads
  rw [saved] at here
  cases here
  refine Grid.generation_add ?_ k
  rw [← Grid.restrict_generation grid (R + 1)]
  exact gridRows_inj.mp matrix.symm

/-! ### The names of the checkpoints -/

/-- The checkpoints of `m` further iterations are those that an uninterrupted run writes under
the same numbers, and the checkpoints of the first run stay as they were. -/
structure KeepsLabels (m ntimes : ℕ) (first second uninterrupted : Directory) : Prop where
  same : ∀ k < m, second k = uninterrupted k
  kept : ∀ k < ntimes, second k = first k

/-- A run restarted from checkpoint `R` keeps the labels exactly if it makes no iteration, or
generations 1 and `R + 2` coincide. -/
theorem keepsLabels_iff (exchange exchange' exchange'' : RowExchange) (grid restored : Grid)
    (positive : 0 < nprocs) {ntimes R m longer : ℕ} {first second uninterrupted : Directory}
    (numbered : R < ntimes) (long : m ≤ longer)
    (runs : Leaves nprocs rows cols exchange ⟨ntimes, none⟩ grid before first)
    (restarts : Leaves nprocs rows cols exchange' ⟨m, some R⟩ restored first second)
    (reference : Leaves nprocs rows cols exchange'' ⟨longer, none⟩ grid before uninterrupted) :
    KeepsLabels m ntimes first second uninterrupted ↔
      m = 0 ∨ grid.generation rows cols (R + 2) = grid.generation rows cols 1 := by
  have original := runs.checkpoint positive
  have again := restarts.checkpoint positive
  have would := reference.checkpoint positive
  have saved : first R = some ⟨rows, cols, R, serialRows rows cols grid (R + 1)⟩ :=
    (original R).trans (if_pos numbered)
  have continued := restarts.1.generation saved
  constructor
  · intro keeps
    rcases Nat.eq_zero_or_pos m with none | some
    · exact .inl none
    · right
      have zero := keeps.same 0 some
      rw [again 0, would 0, if_pos some, if_pos (Nat.lt_of_lt_of_le some long)] at zero
      have matrices := serialRows_inj.mp
        (congrArg CheckpointFile.matrix (Option.some.inj zero))
      rw [continued] at matrices
      exact matrices
  · intro condition
    have same : ∀ k < m, serialRows rows cols restored (k + 1) =
        serialRows rows cols grid (k + 1) := by
      intro k inTime
      rcases condition with rfl | cycle
      · exact absurd inTime (Nat.not_lt_zero k)
      · rw [serialRows_inj, continued]
        have later := Grid.generation_congr cycle k
        rw [Nat.add_comm k 1, ← later]
        exact congrArg (grid.generation rows cols) (by omega)
    refine ⟨fun k inTime => ?_, fun k inTime => ?_⟩
    · rw [again k, would k, if_pos inTime, if_pos (Nat.lt_of_lt_of_le inTime long), same k inTime]
    · rw [again k]
      split
      · rename_i further
        rw [same k further, original k, if_pos inTime]
      · rfl

/-! One rank restarts from its first checkpoint. A column of three live cells leaves a single
cell, which dies. -/

private def alone : Fin 1 := ⟨0, Nat.zero_lt_one⟩

private def aloneActions : List (PointToPoint.Action (Fin 1)) :=
  List.replicate 4 (.call alone) ++ [.waitall alone]

private theorem alone_reaches (grid : Grid) (rank : Fin 1) :
    ∃ mem, RowExchange.pt2pt.Reaches 3 1 1 grid rank 1 mem := by
  let start : Fin 1 → Mem := fun rank =>
    initialise (rowsOf 3 rank) 1 (fun i j => cell (grid (offsetOf 3 rank + i) j)) fun _ => 7
  have same : rank = alone := Subsingleton.elim _ _
  subst same
  exact ⟨_, _, System.reachable_of_exec ⟨start, fun _ => ⟨_, rfl⟩, rfl⟩
    (show System.exec (PointToPoint.step (pt2pt 1 3 1 1))
      (PointToPoint.start (pt2pt 1 3 1 1) start) aloneActions = some _ from rfl), rfl, rfl⟩

/-- One iteration of one rank leaves some directory. -/
private theorem alone_leaves (restartIter : Option ℕ) (grid : Grid) {before : Directory}
    (starts : Starts 3 1 ⟨1, restartIter⟩ before grid) :
    ∃ after, Leaves 1 3 1 .pt2pt ⟨1, restartIter⟩ grid before after := by
  choose mem reaches using alone_reaches grid
  refine ⟨_, starts, fun _ => mem, fun k listed rank => ?_, rfl⟩
  obtain rfl : k = 0 := Nat.lt_one_iff.mp (List.mem_range.mp listed)
  exact reaches rank

/-- A column of live cells. -/
private def column3 : Grid := fun _ _ => true

private def middle : Grid := fun row _ => row == 2

private def nobody : Grid := fun _ _ => false

private theorem alone_saved {grid : Grid} {before after : Directory}
    (leaves : Leaves 1 3 1 .pt2pt ⟨1, none⟩ grid before after) :
    after 0 = some ⟨3, 1, 0, serialRows 3 1 grid 1⟩ :=
  (leaves.checkpoint Nat.zero_lt_one 0).trans (if_pos Nat.zero_lt_one)

theorem keepsLabels_iff_middle :
    ∃ first second, Leaves 1 3 1 .pt2pt ⟨1, none⟩ middle (fun _ => none) first ∧
      Leaves 1 3 1 .pt2pt ⟨1, some 0⟩ nobody first second ∧ KeepsLabels 1 1 first second first := by
  obtain ⟨first, runs⟩ := @alone_leaves none middle (fun _ => none) trivial
  obtain ⟨second, restarts⟩ := alone_leaves (some 0) nobody
    ⟨_, alone_saved runs, rfl, rfl, by decide⟩
  refine ⟨first, second, runs, restarts, ?_⟩
  exact (keepsLabels_iff .pt2pt .pt2pt .pt2pt middle nobody Nat.zero_lt_one Nat.zero_lt_one
    (Nat.le_refl 1) runs restarts runs).mpr (.inr (serialRows_inj.mp (by decide)))

/-- The restarted run replaces checkpoint 0, a single live cell, by a dead grid. -/
theorem column_restart_replaces :
    ∃ first second, Leaves 1 3 1 .pt2pt ⟨1, none⟩ column3 (fun _ => none) first ∧
      Leaves 1 3 1 .pt2pt ⟨1, some 0⟩ middle first second ∧
      first 0 = some ⟨3, 1, 0, [[0], [1], [0]]⟩ ∧ second 0 = some ⟨3, 1, 0, [[0], [0], [0]]⟩ ∧
      ¬ KeepsLabels 1 1 first second first := by
  obtain ⟨first, runs⟩ := @alone_leaves none column3 (fun _ => none) trivial
  obtain ⟨second, restarts⟩ := alone_leaves (some 0) middle
    ⟨_, alone_saved runs, rfl, rfl, by decide⟩
  have old : first 0 = some ⟨3, 1, 0, [[0], [1], [0]]⟩ := (alone_saved runs).trans (by decide)
  have new : second 0 = some ⟨3, 1, 0, [[0], [0], [0]]⟩ :=
    ((restarts.checkpoint Nat.zero_lt_one 0).trans (if_pos Nat.zero_lt_one)).trans (by decide)
  refine ⟨first, second, runs, restarts, old, new, fun keeps => ?_⟩
  have same := keeps.kept 0 Nat.zero_lt_one
  rw [old, new] at same
  exact absurd same (by decide)

end HandsOn.Life
