import HandsOn.Life.FortranGenerations

/-!
# When Life in Fortran is exact

`life` of `mlife2df.f` calculates two generations in each iteration, so that it makes one too many
for an odd `ntimes`. `MLIFE2D_InitEdge` sets the last three rows of a patch: with two of them, it
leaves a live cell above the patch, and above the mesh no exchange overwrites it.
-/

namespace HandsOn.Life.Fortran

open Semantics.Fortran

variable {nprocs gRows gCols ntimes : ℕ} {dims : Dims nprocs} {exchange : Exchange dims gRows gCols}
  {grid : Grid} {start : Fin nprocs → Arrays}

/-- `life` makes `ntimes` generations. No checkpoint has a label above `ntimes`, and each holds
the generation of its label of a grid that the initial arrays hold. -/
def RunsExactly (exchange : Exchange dims gRows gCols) (ntimes : ℕ) (rand : Int → Int → Bool)
    (memory : Fin nprocs → Arrays) : Prop :=
  ∃ start finish grid, initialArrays dims gRows gCols rand memory = .ok start ∧
    life exchange ntimes rand memory = .ok finish ∧
    Holds dims gRows gCols grid 0 (fun rank => (start rank).matrix) ∧
    finish.generations = ntimes ∧ Labelled dims gRows gCols grid ntimes finish.events

/-- What the initial arrays hold is a generation before the first iteration. -/
theorem lifeFrom_exact (exchange : Exchange dims gRows gCols) (fits : AllFit dims gRows gCols)
    (even : ntimes % 2 = 0) (tall : 0 < ntimes → TallTop dims gRows gCols)
    (initial : AllInitial dims gRows gCols start)
    (holds : Holds dims gRows gCols grid 0 fun rank => (start rank).matrix) :
    Gives (lifeFrom exchange ntimes start) fun finish =>
      Labelled dims gRows gCols grid ntimes finish.events := by
  rcases Nat.eq_zero_or_pos ntimes with rfl | entered
  · refine ⟨_, rfl, fun label arrays listed => ?_⟩
    obtain ⟨rfl, rfl⟩ : label = 0 ∧ arrays = fun rank => (start rank).matrix := by
      simpa using listed
    exact ⟨0, Nat.le_refl _, rfl, holds⟩
  · refine (lifeFrom_gives fits holds (initial.dead (tall entered)) initial.dead2).imp ?_
    intro finish good
    have whole : 2 * ((ntimes + 1) / 2) = ntimes := by omega
    exact whole ▸ good.labelled

theorem runsExactly_of (exchange : Exchange dims gRows gCols) (rand : Int → Int → Bool)
    (memory : Fin nprocs → Arrays) (fits : AllFit dims gRows gCols) (even : ntimes % 2 = 0)
    (tall : 0 < ntimes → TallTop dims gRows gCols) : RunsExactly exchange ntimes rand memory := by
  obtain ⟨start, initialised, initial⟩ := initialArrays_gives rand memory fits
  obtain ⟨grid, holds⟩ := initial.exists_holds
  obtain ⟨finish, finished, labelled⟩ := lifeFrom_exact exchange fits even tall initial holds
  refine ⟨start, finish, grid, initialised, bind_eq_ok.mpr ⟨start, initialised, finished⟩, holds,
    ?_, labelled⟩
  rw [generations_eq finished]
  omega

/-! ### A live cell above the mesh -/

theorem cell_injective {first second : Bool} (same : cell first = cell second) :
    first = second := by
  revert same
  cases first <;> cases second <;> decide

theorem exists_rank {prow pcol : ℕ} (inRows : prow < dims.prows) (inCols : pcol < dims.pcols) :
    ∃ rank, dims.prow rank = prow ∧ dims.pcol rank = pcol :=
  ⟨⟨_, dims.lt_of_coords inRows inCols⟩, (dims.some_eq_some prow pcol inCols rfl).mp rfl⟩

/-- A patch of two rows in the upper right corner of the mesh. -/
structure LowCorner (dims : Dims nprocs) (gRows gCols : ℕ) (rank : Fin nprocs) : Prop where
  rows : dims.rowsOf gRows rank = 2
  cols : 1 ≤ dims.colsOf gCols rank
  top : dims.rowOffset gRows rank = 0
  right : dims.colOffset gCols rank + dims.colsOf gCols rank = gCols

theorem exists_lowCorner (fits : AllFit dims gRows gCols) (low : ¬ TallTop dims gRows gCols) :
    ∃ rank, LowCorner dims gRows gCols rank := by
  simp only [TallTop, not_forall, Nat.not_le] at low
  obtain ⟨rank, top, cols, two⟩ := low
  have positive := dims.pcols_pos rank
  obtain ⟨corner, sameRow, last⟩ := exists_rank (dims.prow_lt rank)
    (Nat.sub_lt positive Nat.one_pos)
  have whole : dims.colOffset gCols corner + dims.colsOf gCols corner = gCols := by
    refine offsetBefore_last gCols ?_
    omega
  have within := offsetBefore_add_le gCols (dims.pcol_lt rank)
  have nonempty : 1 ≤ dims.colsOf gCols corner := by
    by_contra empty
    have none := Nat.eq_zero_of_not_pos empty
    have offset : dims.colOffset gCols corner = 0 :=
      offsetBefore_of_empty (dims.pcol_lt corner) none
    rw [none, offset] at whole
    change 1 ≤ lengthOf gCols dims.pcols (dims.pcol rank) at cols
    omega
  refine ⟨corner, ?_, nonempty, ?_, whole⟩
  · have atLeast := (fits rank).two_le
    rw [Dims.rowsOf, sameRow]
    exact Nat.le_antisymm (Nat.le_of_lt_succ two) atLeast
  · rw [Dims.rowOffset, sameRow]
    exact top

/-- A cell of the initial grid, by the patch that holds it. -/
theorem initial_cell (initial : AllInitial dims gRows gCols start)
    (holds : Holds dims gRows gCols grid 0 fun rank => (start rank).matrix) {owner : Fin nprocs}
    (row col : ℕ) (inside : Inside (dims.rowsOf gRows owner) (dims.colsOf gCols owner) row col) :
    grid.generation gRows gCols 0 (dims.rowOffset gRows owner + row)
        (dims.colOffset gCols owner + col) =
      decide (AtEdge (dims.rowsOf gRows owner) (dims.colsOf gCols owner) row col) := by
  have held := holds owner row col inside
  obtain ⟨⟨_, lastRow⟩, _, lastCol⟩ := inside
  change (start owner).matrix row col = _ at held
  rw [(initial owner).edge row (Nat.le_succ_of_le lastRow) col (Nat.le_succ_of_le lastCol)] at held
  exact cell_injective held.symm

/-- The mesh from a patch in its first rows, with a live cell above the last column of the
patch. -/
def seen (dims : Dims nprocs) (gRows gCols : ℕ) (grid : Grid) (rank : Fin nprocs) : Grid :=
  fun i j => grid.generation gRows gCols 0 i (dims.colOffset gCols rank + j) ||
    decide (i = 0 ∧ j = dims.colsOf gCols rank)

section LowCorner

variable {rank : Fin nprocs} (corner : LowCorner dims gRows gCols rank)
include corner

theorem LowCorner.two_le : 2 ≤ gRows := by
  have lower : dims.rowOffset gRows rank + dims.rowsOf gRows rank ≤ gRows :=
    offsetBefore_add_le gRows (dims.prow_lt rank)
  rwa [corner.top, corner.rows, Nat.zero_add] at lower

variable (initial : AllInitial dims gRows gCols start)
  (holds : Holds dims gRows gCols grid 0 fun rank => (start rank).matrix)
include initial holds

/-- The two rows of the patches at the top are the same. -/
theorem LowCorner.same_rows (col : ℕ) :
    grid.generation gRows gCols 0 1 col = grid.generation gRows gCols 0 2 col := by
  have two := corner.two_le
  by_cases inside : Inside gRows gCols 1 col
  · obtain ⟨owner, inPatch⟩ : ∃ owner, InPatch dims gRows gCols owner 1 col :=
      exists_inPatch rank.pos inside
    have sameRow : dims.prow owner = dims.prow rank := by
      have top : offsetBefore gRows dims.prows (dims.prow rank) = 0 := corner.top
      have rows : lengthOf gRows dims.prows (dims.prow rank) = 2 := corner.rows
      refine part_unique (dims.prow_lt owner) (dims.prow_lt rank) inPatch.1.1 inPatch.1.2 ?_ ?_
      · rw [firstOf_eq, top]
      · rw [firstOf_eq, top, rows]
        decide
    have rows : dims.rowsOf gRows owner = 2 := by
      rw [Dims.rowsOf, sameRow]
      exact corner.rows
    have top : dims.rowOffset gRows owner = 0 := by
      rw [Dims.rowOffset, sameRow]
      exact corner.top
    obtain ⟨⟨_, inCols⟩, _, atCol⟩ := inPatch.offset
    have first := initial_cell initial holds 1 _ ⟨⟨Nat.le_refl 1, by omega⟩, inCols⟩
    have second := initial_cell initial holds 2 _ ⟨⟨by decide, rows.ge⟩, inCols⟩
    rw [top, atCol, Nat.zero_add] at first second
    rw [first, second]
    refine decide_eq_decide.mpr ?_
    unfold AtEdge
    omega
  · have inside' : ¬ Inside gRows gCols 2 col := by
      unfold Inside at inside ⊢
      omega
    rw [Grid.generation_outside inside, Grid.generation_outside inside']

/-- After the first exchange, the patch sees the mesh and the live cell above it. -/
theorem LowCorner.sees {i j : ℕ} (inRows : i ≤ 2) (inCols : j ≤ dims.colsOf gCols rank + 1) :
    exchange.run (fun rank => (start rank).matrix) rank i j =
      cell (seen dims gRows gCols grid rank i j) := by
  rw [seen]
  have rows := corner.rows
  have right := corner.right
  have top := corner.top
  have cols := corner.cols
  have two := corner.two_le
  have edge : (start rank).matrix i j =
      cell (AtEdge (dims.rowsOf gRows rank) (dims.colsOf gCols rank) i j) :=
    (initial rank).edge i (by omega) j inCols
  rcases Nat.eq_zero_or_pos i with rfl | below
  · have outside : ¬ Inside gRows gCols (dims.rowOffset gRows rank + 0)
        (dims.colOffset gCols rank + j) := by
      unfold Inside
      omega
    rw [exchange.beyond _ rank 0 j (by omega) cols (by omega) inCols outside]
    rw [top] at outside
    rw [Grid.generation_outside outside, Bool.false_or]
    refine edge.trans (congrArg cell (decide_eq_decide.mpr ?_))
    unfold AtEdge
    omega
  · have dead : ¬ Inside gRows gCols (dims.rowOffset gRows rank + i)
        (dims.colOffset gCols rank + j) → (start rank).matrix i j = dies := by
      intro outside
      have away : ¬ AtEdge (dims.rowsOf gRows rank) (dims.colsOf gCols rank) i j := by
        unfold Inside at outside
        unfold AtEdge
        omega
      rw [edge, decide_eq_false away]
      rfl
    rw [exchange_sees holds (by omega) cols (by omega) inCols dead, Dims.target, top, Nat.zero_add,
      decide_eq_false (by omega), Bool.or_false]

/-- The last cells of the first two rows are alive. -/
theorem LowCorner.alive {row : ℕ} (first : 1 ≤ row) (last : row ≤ 2) :
    grid.generation gRows gCols 0 row gCols = true := by
  have rows := corner.rows
  have held := initial_cell initial holds row (dims.colsOf gCols rank)
    ⟨⟨first, by omega⟩, corner.cols, Nat.le_refl _⟩
  rw [corner.top, Nat.zero_add, corner.right] at held
  refine held.trans (decide_eq_true ?_)
  unfold AtEdge
  omega

/-- With the live cell above the mesh, the cell in the corner has one neighbour too many, and
its next state differs. -/
theorem LowCorner.conway_ne :
    conway (seen dims gRows gCols grid rank 1 (dims.colsOf gCols rank))
        (liveNeighbours (seen dims gRows gCols grid rank) 1 (dims.colsOf gCols rank)) ≠
      conway (grid.generation gRows gCols 0 1 gCols)
        (liveNeighbours (grid.generation gRows gCols 0) 1 gCols) := by
  intro same
  have right := corner.right
  have cols := corner.cols
  have before : dims.colOffset gCols rank + (dims.colsOf gCols rank - 1) = gCols - 1 := by omega
  have after : dims.colOffset gCols rank + (dims.colsOf gCols rank + 1) = gCols + 1 := by omega
  have above : ∀ col, grid.generation gRows gCols 0 0 col = false := fun col =>
    Grid.generation_outside (by unfold Inside; omega) grid 0
  have beside : ∀ row, grid.generation gRows gCols 0 row (gCols + 1) = false := fun row =>
    Grid.generation_outside (by unfold Inside; omega) grid 0
  have first := corner.alive initial holds (Nat.le_refl 1) (by decide)
  have second := corner.alive initial holds (by decide) (Nat.le_refl 2)
  have column := corner.same_rows initial holds (gCols - 1)
  have apart : dims.colsOf gCols rank - 1 ≠ dims.colsOf gCols rank := by omega
  simp only [conway, liveNeighbours, neighbours, List.countP_cons, List.countP_nil, seen, before,
    after, right, above, beside, first, second, column, apart] at same
  cases left : grid.generation gRows gCols 0 2 (gCols - 1) <;> simp [left] at same

/-- The first generation is wrong in the corner. -/
theorem LowCorner.not_holds {matrix2 : Fin nprocs → Array2} (fits : AllFit dims gRows gCols)
    (calculated : calculate dims gRows gCols (exchange.run fun rank => (start rank).matrix)
      (fun rank => (start rank).matrix2) = .ok matrix2) :
    ¬ Holds dims gRows gCols grid 1 matrix2 := by
  intro next
  have two := corner.two_le
  have right := corner.right
  have cols := corner.cols
  have inside : Inside (dims.rowsOf gRows rank) (dims.colsOf gCols rank) 1
      (dims.colsOf gCols rank) :=
    ⟨⟨Nat.le_refl 1, by rw [corner.rows]; decide⟩, cols, Nat.le_refl _⟩
  have stored := next rank 1 _ inside
  rw [(calculate_gives fits).of_ok calculated, if_pos inside, Dims.target, corner.top, right,
    Grid.generation, Grid.next, Grid.restrict_inside ⟨⟨by decide, by omega⟩, by omega, by omega⟩]
    at stored
  have computed : nextstate (exchange.run (fun rank => (start rank).matrix) rank) 1
      (dims.colsOf gCols rank) = cell (conway
        (seen dims gRows gCols grid rank 1 (dims.colsOf gCols rank))
        (liveNeighbours (seen dims gRows gCols grid rank) 1 (dims.colsOf gCols rank))) :=
    nextstate_eq fun i j _ below _ beside => corner.sees initial holds below beside
  exact corner.conway_ne initial holds (cell_injective (computed.symm.trans stored))

end LowCorner

/-! ### Exactly when -/

section RunsExactly

variable {rand : Int → Int → Bool} {memory : Fin nprocs → Arrays}

theorem RunsExactly.even (runs : RunsExactly exchange ntimes rand memory) : ntimes % 2 = 0 := by
  obtain ⟨_, finish, _, _, ran, _, count, _⟩ := runs
  obtain ⟨start, _, finished⟩ := bind_eq_ok.mp ran
  rw [generations_eq finished] at count
  omega

theorem RunsExactly.fits (runs : RunsExactly exchange ntimes rand memory) :
    AllFit dims gRows gCols := by
  obtain ⟨_, _, _, initialised, _⟩ := runs
  exact allFit_of_initialArrays initialised

theorem RunsExactly.tall (runs : RunsExactly exchange ntimes rand memory) (entered : 0 < ntimes) :
    TallTop dims gRows gCols := by
  have fits := runs.fits
  obtain ⟨start, finish, grid, initialised, ran, holds, _, labelled⟩ := runs
  obtain ⟨_, initialised', finished⟩ := bind_eq_ok.mp ran
  cases initialised.symm.trans initialised'
  have initial := (initialArrays_gives rand memory fits).of_ok initialised
  by_contra low
  obtain ⟨rank, corner⟩ := exists_lowCorner fits low
  obtain ⟨matrix2, calculated, listed⟩ := first_checkpoint entered finished
  obtain ⟨k, _, same, next⟩ := labelled 1 matrix2 listed
  obtain rfl : k = 1 := by omega
  exact corner.not_holds initial holds fits calculated next

end RunsExactly

/-- `life` runs exactly `ntimes` generations if `ntimes` is even, every patch fits, and there is
nothing alive beyond the mesh when the first generation is calculated; and only then. -/
theorem runsExactly_iff (exchange : Exchange dims gRows gCols) (ntimes : ℕ)
    (rand : Int → Int → Bool) (memory : Fin nprocs → Arrays) :
    RunsExactly exchange ntimes rand memory ↔
      ntimes % 2 = 0 ∧ AllFit dims gRows gCols ∧ (0 < ntimes → TallTop dims gRows gCols) := by
  constructor
  · intro runs
    exact ⟨runs.even, runs.fits, runs.tall⟩
  · rintro ⟨even, fits, tall⟩
    exact runsExactly_of exchange rand memory fits even tall

/-! ### An exchange -/

instance (dims : Dims nprocs) (gRows gCols : ℕ) (rank : Fin nprocs) (row col : ℕ) :
    Decidable (InPatch dims gRows gCols rank row col) :=
  inferInstanceAs (Decidable ((_ ∧ _) ∧ _ ∧ _))

/-- The process that owns a cell of the mesh. -/
def owner? (dims : Dims nprocs) (gRows gCols row col : ℕ) : Option (Fin nprocs) :=
  (List.finRange nprocs).find? fun rank => InPatch dims gRows gCols rank row col

theorem inPatch_of_owner? {rank : Fin nprocs} {row col : ℕ}
    (found : owner? dims gRows gCols row col = some rank) :
    InPatch dims gRows gCols rank row col := by
  rw [owner?] at found
  simpa using List.find?_some found

theorem owner?_eq_some {rank : Fin nprocs} {row col : ℕ} :
    owner? dims gRows gCols row col = some rank ↔ InPatch dims gRows gCols rank row col := by
  constructor
  · exact inPatch_of_owner?
  · intro inPatch
    cases found : owner? dims gRows gCols row col with
    | none =>
        have away := List.find?_eq_none.mp found rank (List.mem_finRange rank)
        exact absurd (decide_eq_true inPatch) away
    | some other =>
        rw [(inPatch_of_owner? found).unique inPatch]

/-- Every process gets what it sees of the mesh from the owners. -/
def Exchange.fromOwners (dims : Dims nprocs) (gRows gCols : ℕ) : Exchange dims gRows gCols where
  run arrays rank row col :=
    match owner? dims gRows gCols (dims.rowOffset gRows rank + row)
      (dims.colOffset gCols rank + col) with
    | some owner => arrays owner (dims.rowOffset gRows rank + row - dims.rowOffset gRows owner)
        (dims.colOffset gCols rank + col - dims.colOffset gCols owner)
    | none => arrays rank row col
  within arrays rank owner row col row' col' _ _ _ _ inside atRow atCol := by
    rw [atRow, atCol, owner?_eq_some.mpr (inPatch_of_inside inside)]
    simp only [Nat.add_sub_cancel_left]
  beyond arrays rank row col _ _ _ _ outside := by
    cases found : owner? dims gRows gCols (dims.rowOffset gRows rank + row)
      (dims.colOffset gCols rank + col) with
    | none => rfl
    | some owner => exact absurd (owner?_eq_some.mp found).inside outside

/-- One process with the grid of `mlife_get_args`, asked for one generation. -/
theorem one_generation_not_exact :
    let dims : Dims 1 := ⟨1, 1, rfl⟩
    ¬ RunsExactly (Exchange.fromOwners dims 25 70) 1 (fun _ _ => false)
      (fun _ => ⟨fun _ _ => 0, fun _ _ => 0⟩) := by
  intro dims runs
  exact absurd runs.even (by decide)

end HandsOn.Life.Fortran
