import HandsOn.Life.MeshOutline

/-!
# Parallel Life on a mesh of patches equals serial Life

Whatever the order of the ranks' steps and of the completion of messages and puts,
the patches after `k` iterations make up generation `k`, and after each exchange a
patch that is not empty is surrounded by the current generation.
-/

namespace HandsOn.Life

open HandsOn.Mpi HandsOn.Semantics

/-- The implementations of `MLIFE_exchange` for a mesh of patches. -/
inductive MeshExchange where
  | pt2pt
  | fence

namespace MeshExchange

variable {nprocs : ℕ}

/-- `rank` may hold `mem` after `k` of `ntimes` iterations, before its next
calculation. -/
def Reaches (exchange : MeshExchange) (dims : Dims nprocs) (gRows gCols ntimes : ℕ)
    (grid : Grid) (rank : Fin nprocs) (k : ℕ) (mem : Mem) : Prop :=
  ∃ phase, phase / 2 = k ∧ match exchange with
    | .pt2pt => (dims.pt2pt gRows gCols ntimes).Reaches (dims.InitialPatches gRows gCols grid)
        rank phase mem
    | .fence => (dims.fence gRows gCols ntimes).Reaches (dims.InitialPatches gRows gCols grid)
        rank phase mem

/-- The `MLIFE_exchange` of `rank` in iteration `k` may return with `mem`. -/
def Returns (exchange : MeshExchange) (dims : Dims nprocs) (gRows gCols ntimes : ℕ)
    (grid : Grid) (rank : Fin nprocs) (k : ℕ) (mem : Mem) : Prop :=
  match exchange with
  | .pt2pt => (dims.pt2pt gRows gCols ntimes).Completes (dims.InitialPatches gRows gCols grid)
      rank (2 * k + 1) mem
  | .fence => (dims.fence gRows gCols ntimes).Completes (dims.InitialPatches gRows gCols grid)
      rank (2 * k + 1) mem

/-- While a rank has iterations left, some step can be taken. -/
def Progresses (exchange : MeshExchange) (dims : Dims nprocs) (gRows gCols ntimes : ℕ)
    (grid : Grid) : Prop :=
  match exchange with
  | .pt2pt => ((dims.pt2pt gRows gCols ntimes).system
      (dims.InitialPatches gRows gCols grid)).NeverStuck
        fun state => ∃ rank, state.phase rank < 2 * ntimes
  | .fence => ((dims.fence gRows gCols ntimes).system
      (dims.InitialPatches gRows gCols grid)).NeverStuck
        fun state => ∃ rank, state.phase rank < 2 * ntimes

end MeshExchange

/-- What the patches, laid at `(gFirstRow, gFirstCol)`, hold for a cell of the mesh. -/
def contributions {nprocs : ℕ} (dims : Dims nprocs) (gRows gCols k : ℕ)
    (mem : Fin nprocs → Mem) (row col : ℕ) : List Int :=
  (List.finRange nprocs).filterMap fun rank =>
    let patch := dims.meshDecomp gRows gCols rank
    if (patch.gFirstRow ≤ row ∧ row < patch.gFirstRow + patch.lRows) ∧
        patch.gFirstCol ≤ col ∧ col < patch.gFirstCol + patch.lCols then
      some (view patch.lCols (matrixAt k) (mem rank) (row + 1 - patch.gFirstRow)
        (col + 1 - patch.gFirstCol))
    else none

variable {nprocs gRows gCols ntimes : ℕ} {dims : Dims nprocs} {grid : Grid}

namespace MeshExchange

/-- Both implementations are simulated by the exchange of patch edges. -/
theorem Reaches.patches {exchange : MeshExchange} {rank : Fin nprocs} {k : ℕ} {mem : Mem}
    (reaches : exchange.Reaches dims gRows gCols ntimes grid rank k mem) :
    ∃ phase ≤ 2 * ntimes, phase / 2 = k ∧ (dims.patches gRows gCols ntimes).Reaches
      (dims.InitialPatches gRows gCols grid) rank phase mem := by
  obtain ⟨phase, iteration, reaches⟩ := reaches
  suffices phase ≤ 2 * ntimes ∧ (dims.patches gRows gCols ntimes).Reaches
      (dims.InitialPatches gRows gCols grid) rank phase mem from
    ⟨phase, this.1, iteration, this.2⟩
  cases exchange with
  | pt2pt =>
      rw [← Dims.pt2pt_exchange]
      exact PointToPoint.Program.Reaches.exchange reaches
        (dims.pt2pt_matched gRows gCols ntimes)
  | fence =>
      rw [← Dims.fence_exchange]
      exact OneSided.Program.Reaches.exchange reaches (dims.fence_matched gRows gCols ntimes)

theorem Returns.patches {exchange : MeshExchange} {rank : Fin nprocs} {k : ℕ} {mem : Mem}
    (returns : exchange.Returns dims gRows gCols ntimes grid rank k mem) :
    2 * k + 1 < 2 * ntimes ∧ (dims.patches gRows gCols ntimes).Completes
      (dims.InitialPatches gRows gCols grid) rank (2 * k + 1) mem := by
  cases exchange with
  | pt2pt =>
      rw [← Dims.pt2pt_exchange]
      exact PointToPoint.Program.Completes.exchange returns
        (dims.pt2pt_matched gRows gCols ntimes)
  | fence =>
      rw [← Dims.fence_exchange]
      exact OneSided.Program.Completes.exchange returns (dims.fence_matched gRows gCols ntimes)

theorem progresses (exchange : MeshExchange) :
    exchange.Progresses dims gRows gCols ntimes grid := by
  cases exchange with
  | pt2pt => exact PointToPoint.Program.progress (dims.pt2pt_matched gRows gCols ntimes) _
  | fence => exact OneSided.Program.progress (dims.fence_matched gRows gCols ntimes) _

/-- A patch's interior after `k` iterations is its part of generation `k`. -/
theorem Reaches.view_eq {exchange : MeshExchange} {rank : Fin nprocs} {k : ℕ} {mem : Mem}
    (reaches : exchange.Reaches dims gRows gCols ntimes grid rank k mem) {row col : ℕ}
    (inside : Inside (dims.rowsOf gRows rank) (dims.colsOf gCols rank) row col) :
    view (dims.colsOf gCols rank) (matrixAt k) mem row col =
      dims.target gRows gCols grid k rank row col := by
  obtain ⟨phase, inTime, rfl, state, reachable, rfl, rfl⟩ := reaches.patches
  have sound := (dims.patchesOutline gRows gCols ntimes grid).sound_of_reachable
    (fun mem initial rank address _ => initial.cell rank address) reachable
  refine (sound.cell_of_untargeted ?_ inTime).interior row col inside rfl
  rintro source index ⟨origin, listed⟩
  exact Dims.interior_untargeted inside (Dims.patches_listed.mp listed).2

/-- When an exchange returns, a patch that is not empty sees the current generation in
its whole halo. -/
theorem Returns.view_eq {exchange : MeshExchange} {rank : Fin nprocs} {k : ℕ} {mem : Mem}
    (returns : exchange.Returns dims gRows gCols ntimes grid rank k mem)
    (rows : 1 ≤ dims.rowsOf gRows rank) (cols : 1 ≤ dims.colsOf gCols rank) {row col : ℕ}
    (inRows : row ≤ dims.rowsOf gRows rank + 1) (inCols : col ≤ dims.colsOf gCols rank + 1) :
    view (dims.colsOf gCols rank) (matrixAt k) mem row col =
      dims.target gRows gCols grid k rank row col := by
  obtain ⟨inTime, completes⟩ := returns.patches
  have completed := (dims.patchesOutline gRows gCols ntimes grid).completed_of_completes
    (fun mem initial rank address _ => initial.cell rank address) completes
  have exchanged : dims.Exchanged gRows gCols ntimes grid (2 * k + 1) rank mem := fun address =>
    (completed address).imp_right (And.imp_right fun holds => holds inTime.le)
  have half : (2 * k + 1) / 2 = k := by omega
  have seen := exchanged.view inTime (by omega) rows cols inRows inCols
  rwa [half] at seen

end MeshExchange

/-- Where exactly one member of a list without repetitions contributes, the
contributions are its own. -/
theorem filterMap_eq_singleton {Member Value : Type} {members : List Member}
    (distinct : members.Nodup) {member : Member} (listed : member ∈ members)
    {contribution : Member → Option Value} {value : Value}
    (own : contribution member = some value)
    (others : ∀ other, other ≠ member → contribution other = none) :
    members.filterMap contribution = [value] := by
  obtain ⟨before, after, rfl⟩ := List.append_of_mem listed
  rw [List.nodup_middle, List.nodup_cons, List.mem_append, not_or] at distinct
  obtain ⟨⟨notBefore, notAfter⟩, _⟩ := distinct
  rw [List.filterMap_append, List.filterMap_cons, own,
    List.filterMap_eq_nil_iff.mpr fun other inside => others other fun same =>
      notBefore (same ▸ inside),
    List.filterMap_eq_nil_iff.mpr fun other inside => others other fun same =>
      notAfter (same ▸ inside)]
  rfl

/-- The cell of the mesh is in the patch of `rank`. -/
def InPatch (dims : Dims nprocs) (gRows gCols : ℕ) (rank : Fin nprocs) (row col : ℕ) : Prop :=
  let patch := dims.meshDecomp gRows gCols rank
  (patch.gFirstRow ≤ row ∧ row < patch.gFirstRow + patch.lRows) ∧
    patch.gFirstCol ≤ col ∧ col < patch.gFirstCol + patch.lCols

/-- The patches cover the mesh. -/
theorem exists_inPatch (positive : 0 < nprocs) {row col : ℕ} (inside : Inside gRows gCols row col) :
    ∃ rank, InPatch dims gRows gCols rank row col := by
  obtain ⟨⟨firstRow, lastRow⟩, firstCol, lastCol⟩ := inside
  have product := dims.product
  obtain ⟨prow, inRows, inPatchRows⟩ := exists_part
    (Nat.pos_of_mul_pos_right (product ▸ positive)) firstRow lastRow
  obtain ⟨pcol, inCols, inPatchCols⟩ := exists_part
    (Nat.pos_of_mul_pos_left (product ▸ positive)) firstCol lastCol
  obtain ⟨rank, rfl, rfl⟩ : ∃ rank, dims.prow rank = prow ∧ dims.pcol rank = pcol :=
    ⟨⟨_, dims.lt_of_coords inRows inCols⟩, (dims.some_eq_some prow pcol inCols rfl).mp rfl⟩
  exact ⟨rank, inPatchRows, inPatchCols⟩

/-- They do not overlap. -/
theorem InPatch.unique {first second : Fin nprocs} {row col : ℕ}
    (inFirst : InPatch dims gRows gCols first row col)
    (inSecond : InPatch dims gRows gCols second row col) : first = second := by
  obtain ⟨⟨startsRow, endsRow⟩, startsCol, endsCol⟩ := inFirst
  obtain ⟨⟨startsRow', endsRow'⟩, startsCol', endsCol'⟩ := inSecond
  exact dims.rank_ext
    (part_unique (dims.prow_lt first) (dims.prow_lt second) startsRow endsRow startsRow' endsRow')
    (part_unique (dims.pcol_lt first) (dims.pcol_lt second) startsCol endsCol startsCol' endsCol')

/-- A cell in a patch is in its interior, at its offset from where the patch begins. -/
theorem InPatch.offset {rank : Fin nprocs} {row col : ℕ}
    (inPatch : InPatch dims gRows gCols rank row col) :
    Inside (dims.rowsOf gRows rank) (dims.colsOf gCols rank)
        (row + 1 - (dims.meshDecomp gRows gCols rank).gFirstRow)
        (col + 1 - (dims.meshDecomp gRows gCols rank).gFirstCol) ∧
      dims.rowOffset gRows rank + (row + 1 - (dims.meshDecomp gRows gCols rank).gFirstRow) = row ∧
      dims.colOffset gCols rank + (col + 1 - (dims.meshDecomp gRows gCols rank).gFirstCol) =
        col := by
  obtain ⟨⟨startsRow, endsRow⟩, startsCol, endsCol⟩ := inPatch
  simp only [Dims.meshDecomp, firstOf_eq] at startsRow endsRow startsCol endsCol ⊢
  simp only [Inside, Dims.rowsOf, Dims.colsOf, Dims.rowOffset, Dims.colOffset, lengthOf, firstOf_eq]
  refine ⟨⟨⟨?_, ?_⟩, ?_, ?_⟩, ?_, ?_⟩ <;> omega

/-- The patches stay in the mesh. -/
theorem InPatch.inside {rank : Fin nprocs} {row col : ℕ}
    (inPatch : InPatch dims gRows gCols rank row col) : Inside gRows gCols row col := by
  obtain ⟨interior, atRow, atCol⟩ := inPatch.offset
  have inMesh : Inside gRows gCols (dims.rowOffset gRows rank + _)
    (dims.colOffset gCols rank + _) := Dims.inside_mesh interior
  rwa [atRow, atCol] at inMesh

theorem contributions_eq {k : ℕ} {mem : Fin nprocs → Mem} (positive : 0 < nprocs)
    (patches : ∀ rank row col,
      Inside (dims.rowsOf gRows rank) (dims.colsOf gCols rank) row col →
      view (dims.colsOf gCols rank) (matrixAt k) (mem rank) row col =
        dims.target gRows gCols grid k rank row col)
    (row col : ℕ) :
    contributions dims gRows gCols k mem row col =
      if Inside gRows gCols row col then [cell (grid.generation gRows gCols k row col)]
      else [] := by
  split
  · next inside =>
      obtain ⟨rank, inPatch⟩ := exists_inPatch positive inside
      refine filterMap_eq_singleton (List.nodup_finRange nprocs) (List.mem_finRange rank) ?_ ?_
      · obtain ⟨interior, atRow, atCol⟩ := inPatch.offset
        refine (if_pos inPatch).trans (congrArg some ((patches rank _ _ interior).trans ?_))
        rw [Dims.target, atRow, atCol]
      · exact fun other different => if_neg fun inOther =>
          different (InPatch.unique inOther inPatch)
  · next outside =>
      exact List.filterMap_eq_nil_iff.mpr fun rank _ => if_neg fun inPatch =>
        outside (InPatch.inside inPatch)

/-- Parallel Life on a mesh of patches never deadlocks, its patches after `k`
iterations are generation `k` of serial Life, and when `MLIFE_exchange` returns in
iteration `k`, every halo cell of a patch that is not empty holds its cell of
generation `k`. -/
theorem mesh_life_eq_serial (exchange : MeshExchange) (dims : Dims nprocs)
    (gRows gCols ntimes : ℕ) (grid : Grid) (positive : 0 < nprocs) :
    exchange.Progresses dims gRows gCols ntimes grid ∧
    (∀ (k : ℕ) (mem : Fin nprocs → Mem),
      (∀ rank, exchange.Reaches dims gRows gCols ntimes grid rank k (mem rank)) →
      ∀ row col, contributions dims gRows gCols k mem row col =
        if Inside gRows gCols row col then [cell (grid.generation gRows gCols k row col)]
        else []) ∧
    ∀ (k : ℕ) (rank : Fin nprocs) (mem : Mem),
      exchange.Returns dims gRows gCols ntimes grid rank k mem →
      let patch := dims.meshDecomp gRows gCols rank
      1 ≤ patch.lRows → 1 ≤ patch.lCols → ∀ row ≤ patch.lRows + 1, ∀ col ≤ patch.lCols + 1,
        view patch.lCols (matrixAt k) mem row col =
          cell (grid.generation gRows gCols k (row + patch.gFirstRow - 1)
            (col + patch.gFirstCol - 1)) := by
  refine ⟨exchange.progresses, fun k mem reaches row col => ?_, ?_⟩
  · exact contributions_eq positive (fun rank _ _ inside => (reaches rank).view_eq inside) row col
  · intro k rank mem returns patch rows cols row inRows col inCols
    rw [← dims.rowOffset_add gRows gCols, ← dims.colOffset_add gRows gCols]
    exact returns.view_eq rows cols inRows inCols

/-! One iteration on two live cells side by side, the right one ahead of the left. -/

private def pairDims : Dims 2 := ⟨1, 2, rfl⟩

private def pair : Grid := fun _ _ => true

private def pairMem (rank : Fin 2) : Mem :=
  let patch := pairDims.meshDecomp 1 2 rank
  initialise patch.lRows patch.lCols
    (fun i j => cell (pair (i + patch.gFirstRow - 1) (j + patch.gFirstCol - 1))) fun _ => 7

private def leftPatch : Fin 2 := ⟨0, Nat.zero_lt_two⟩

private def rightPatch : Fin 2 := ⟨1, Nat.one_lt_two⟩

private def pairActions : List (PointToPoint.Action (Fin 2)) :=
  List.replicate 4 (.call rightPatch) ++ [.read rightPatch leftPatch 0 0] ++
    List.replicate 4 (.call leftPatch) ++
    [.read leftPatch rightPatch 0 0, .store leftPatch rightPatch 0 0, .waitall rightPatch] ++
    List.replicate 4 (.call rightPatch) ++ [.waitall rightPatch] ++
    [.store rightPatch leftPatch 0 0, .waitall leftPatch] ++
    List.replicate 4 (.call leftPatch) ++ [.waitall leftPatch]

private def pairRun := (System.exec (PointToPoint.step (pairDims.pt2pt 1 2 1))
  (PointToPoint.start (pairDims.pt2pt 1 2 1) pairMem) pairActions).get (by decide +kernel)

private theorem pairRun_exec : System.exec (PointToPoint.step (pairDims.pt2pt 1 2 1))
    (PointToPoint.start (pairDims.pt2pt 1 2 1) pairMem) pairActions = some pairRun :=
  (Option.some_get _).symm

private theorem pairRun_reaches (rank : Fin 2) :
    MeshExchange.pt2pt.Reaches pairDims 1 2 1 pair rank 1 (pairRun.2.mem rank) := by
  refine ⟨2, rfl, pairRun.2, System.reachable_of_exec ⟨pairMem, fun _ => ⟨_, rfl⟩, rfl⟩
    pairRun_exec, ?_, rfl⟩
  revert rank
  decide +kernel

theorem mesh_life_eq_serial_pair :
    contributions pairDims 1 2 1 pairRun.2.mem 1 2 = [0] :=
  ((mesh_life_eq_serial .pt2pt pairDims 1 2 1 pair (by decide)).2.1 1 pairRun.2.mem
    pairRun_reaches 1 2).trans (by decide)

end HandsOn.Life
