import HandsOn.Life.RowBlockOutline

/-!
# Parallel Life on blocks of rows equals serial Life

Whatever the order of the ranks' steps and of the completion of messages and puts,
the rows of all ranks after `k` iterations are generation `k`.
-/

namespace HandsOn.Life

open HandsOn.Mpi HandsOn.Semantics

/-- The implementations of `MLIFE_exchange` for blocks of rows. -/
inductive RowExchange where
  | pt2pt
  | fence
  | pscw

/-- `rank` may hold `mem` after `k` of `ntimes` iterations. -/
def RowExchange.Reaches (exchange : RowExchange) {nprocs : ℕ} (rows cols ntimes : ℕ)
    (grid : Grid) (rank : Fin nprocs) (k : ℕ) (mem : Mem) : Prop :=
  match exchange with
  | .pt2pt => (Life.pt2pt nprocs rows cols ntimes).Reaches (InitialRows rows cols grid) rank k mem
  | .fence => (Life.fence nprocs rows cols ntimes).Reaches (InitialRows rows cols grid) rank k mem
  | .pscw => (Life.pscw nprocs rows cols ntimes).Reaches (InitialRows rows cols grid) rank k mem

/-- While a rank has iterations left, some step can be taken. -/
def RowExchange.Progresses (exchange : RowExchange) (nprocs rows cols ntimes : ℕ)
    (grid : Grid) : Prop :=
  match exchange with
  | .pt2pt => ((Life.pt2pt nprocs rows cols ntimes).system
      (InitialRows rows cols grid)).NeverStuck fun state => ∃ rank, state.phase rank < ntimes
  | .fence => ((Life.fence nprocs rows cols ntimes).system
      (InitialRows rows cols grid)).NeverStuck fun state => ∃ rank, state.phase rank < ntimes
  | .pscw => ((Life.pscw nprocs rows cols ntimes).system
      (InitialRows rows cols grid)).NeverStuck fun state => ∃ rank, state.phase rank < ntimes

/-- The interior rows of all ranks, in rank order. -/
def assembleRows {nprocs : ℕ} (rows cols k : ℕ) (mem : Fin nprocs → Mem) : List (List Int) :=
  (List.finRange nprocs).flatMap fun rank =>
    interior (rowsOf rows rank) cols (matrixAt k) (mem rank)

/-- Generation `k`, row by row. -/
def serialRows (rows cols : ℕ) (grid : Grid) (k : ℕ) : List (List Int) :=
  (List.range' 1 rows).map fun row =>
    (List.range' 1 cols).map fun col => cell (grid.generation rows cols k row col)

variable {nprocs rows cols ntimes : ℕ} {grid : Grid}

/-- All implementations are simulated by the exchange of edges. -/
theorem RowExchange.Reaches.edges {exchange : RowExchange} {rank : Fin nprocs} {k : ℕ}
    {mem : Mem} (reaches : exchange.Reaches rows cols ntimes grid rank k mem) :
    k ≤ ntimes ∧
      (edges nprocs rows cols ntimes).Reaches (InitialRows rows cols grid) rank k mem := by
  cases exchange with
  | pt2pt =>
      rw [← pt2pt_exchange]
      exact PointToPoint.Program.Reaches.exchange reaches (pt2pt_matched rows cols ntimes)
  | fence =>
      rw [← fence_exchange]
      exact OneSided.Program.Reaches.exchange reaches (fence_matched rows cols ntimes)
  | pscw =>
      rw [← pscw_exchange]
      exact OneSided.Program.Reaches.exchange reaches (pscw_matched rows cols ntimes)

theorem RowExchange.progresses (exchange : RowExchange) :
    exchange.Progresses nprocs rows cols ntimes grid := by
  cases exchange with
  | pt2pt => exact PointToPoint.Program.progress (pt2pt_matched rows cols ntimes) _
  | fence => exact OneSided.Program.progress (fence_matched rows cols ntimes) _
  | pscw => exact OneSided.Program.progress (pscw_matched rows cols ntimes) _

/-- A rank's interior after `k` iterations is its block of generation `k`. -/
theorem RowExchange.Reaches.interior_eq {exchange : RowExchange} {rank : Fin nprocs} {k : ℕ}
    {mem : Mem} (reaches : exchange.Reaches rows cols ntimes grid rank k mem) :
    interior (rowsOf rows rank) cols (matrixAt k) mem =
      (List.range' (offsetOf rows rank + 1) (rowsOf rows rank)).map fun row =>
        (List.range' 1 cols).map fun col => cell (grid.generation rows cols k row col) := by
  have shifted : List.range' (offsetOf rows rank + 1) (rowsOf rows rank) =
      (List.range' 1 (rowsOf rows rank)).map (offsetOf rows rank + ·) :=
    (List.map_add_range' _ _ _).symm
  rw [interior, shifted, List.map_map]
  refine List.map_congr_left fun row member => List.map_congr_left fun col member' => ?_
  rw [List.mem_range'_1] at member member'
  have inside : Inside (rowsOf rows rank) cols row col := by
    unfold Inside
    omega
  exact edges_interior reaches.edges.2 reaches.edges.1 inside

/-- The blocks of the ranks below `count` are the first rows of the grid. -/
theorem blocks_flatMap (rows nprocs count : ℕ) :
    (List.range count).flatMap (fun rank => List.range' (myrowoffset rows rank nprocs + 1)
      (myrows rows rank nprocs)) = List.range' 1 (myrowoffset rows count nprocs) := by
  induction count with
  | zero => simp [myrowoffset_zero]
  | succ count ih =>
      rw [List.range_succ, List.flatMap_append, ih, List.flatMap_singleton, myrowoffset_succ,
        Nat.add_comm (myrowoffset rows count nprocs) 1, List.range'_append_1]

/-- The rows of all ranks after `k` iterations are those of generation `k`. -/
theorem RowExchange.assembleRows_eq {exchange : RowExchange} (positive : 0 < nprocs) {k : ℕ}
    {mem : Fin nprocs → Mem}
    (reaches : ∀ rank, exchange.Reaches rows cols ntimes grid rank k (mem rank)) :
    assembleRows rows cols k mem = serialRows rows cols grid k := by
  have blocks : assembleRows rows cols k mem = ((List.finRange nprocs).flatMap fun rank =>
      List.range' (offsetOf rows rank + 1) (rowsOf rows rank)).map fun row =>
        (List.range' 1 cols).map fun col => cell (grid.generation rows cols k row col) := by
    rw [List.map_flatMap]
    exact List.flatMap_congr fun rank _ => (reaches rank).interior_eq
  have ranks : (List.finRange nprocs).flatMap (fun rank : Fin nprocs =>
      List.range' (offsetOf rows rank + 1) (rowsOf rows rank)) =
      (List.range nprocs).flatMap fun rank => List.range' (myrowoffset rows rank nprocs + 1)
        (myrows rows rank nprocs) := by
    have values : (List.finRange nprocs).map Fin.val = List.range nprocs :=
      List.ext_getElem (by simp) (by simp)
    rw [← values, List.flatMap_map]
  rw [blocks, ranks, blocks_flatMap, myrowoffset_nprocs rows positive, serialRows]

/-- Parallel Life on blocks of rows never deadlocks, and after `k` iterations its
rows are generation `k` of serial Life. -/
theorem rows_life_eq_serial (exchange : RowExchange) (rows cols ntimes : ℕ) (grid : Grid)
    (positive : 0 < nprocs) :
    exchange.Progresses nprocs rows cols ntimes grid ∧
      ∀ (k : ℕ) (mem : Fin nprocs → Mem),
        (∀ rank, exchange.Reaches rows cols ntimes grid rank k (mem rank)) →
          assembleRows rows cols k mem = serialRows rows cols grid k :=
  ⟨exchange.progresses, fun _ _ reaches => RowExchange.assembleRows_eq positive reaches⟩

/-! One iteration on a column of three live cells. The lower rank is ahead of the upper. -/

private def pillar : Grid := fun _ _ => true

private def pillarMem (rank : Fin 2) : Mem :=
  initialise (rowsOf 3 rank) 1 (fun i j => cell (pillar (offsetOf 3 rank + i) j)) fun _ => 7

private def upper : Fin 2 := ⟨0, Nat.zero_lt_two⟩

private def lower : Fin 2 := ⟨1, Nat.one_lt_two⟩

private def pillarActions : List (PointToPoint.Action (Fin 2)) :=
  List.replicate 4 (.call lower) ++ (List.range 3).map (.read lower upper 0) ++
    List.replicate 4 (.call upper) ++ (List.range 3).map (.read upper lower 0) ++
    (List.range 3).map (.store upper lower 0) ++ [.waitall lower] ++
    (List.range 3).map (.store lower upper 0) ++ [.waitall upper]

private def pillarRun := (System.exec (PointToPoint.step (pt2pt 2 3 1 1))
  (PointToPoint.start (pt2pt 2 3 1 1) pillarMem) pillarActions).get (by decide +kernel)

private theorem pillarRun_exec : System.exec (PointToPoint.step (pt2pt 2 3 1 1))
    (PointToPoint.start (pt2pt 2 3 1 1) pillarMem) pillarActions = some pillarRun :=
  (Option.some_get _).symm

private theorem pillarRun_reaches (rank : Fin 2) :
    RowExchange.pt2pt.Reaches 3 1 1 pillar rank 1 (pillarRun.2.mem rank) := by
  refine ⟨pillarRun.2, System.reachable_of_exec ⟨pillarMem, fun _ => ⟨_, rfl⟩, rfl⟩
    pillarRun_exec, ?_, rfl⟩
  revert rank
  decide +kernel

theorem rows_life_eq_serial_pillar :
    assembleRows 3 1 1 pillarRun.2.mem = [[0], [1], [0]] :=
  ((rows_life_eq_serial .pt2pt 3 1 1 pillar (by decide)).2 1 pillarRun.2.mem
    pillarRun_reaches).trans (by decide)

end HandsOn.Life
