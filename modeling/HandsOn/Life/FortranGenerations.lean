import HandsOn.Life.FortranLife

/-!
# The generations of Life in Fortran

Each half of an iteration turns generation `k` in one array into generation `k + 1` in the other,
if the patches fit and nothing is alive beyond the mesh in either array. The sweeps never write
there, so that this stays as the initial arrays have it.
-/

namespace HandsOn.Life.Fortran

open Semantics.Fortran

/-- A patch that the arrays have room for, and whose last three rows `MLIFE2D_InitEdge` can
assign. -/
structure Fits (rows cols : ℕ) : Prop where
  two_le : 2 ≤ rows
  rows_le : rows ≤ 98
  cols_le : cols ≤ 98

/-! ### One process -/

section Process

variable {rows cols row col : ℕ} {matrix : Array2} {arrays : Arrays}

/-- Within the arrays, the new state is the one that the other programs compute. -/
theorem mlifeNextstate_eq {i j : Int} (atRow : i = fromOne.lower + row)
    (atCol : j = fromOne.lower + col) (fits : rows ≤ 98) (fits' : cols ≤ 98)
    (inside : Inside rows cols row col) :
    mlifeNextstate matrix i j = .ok (nextstate matrix row col) := by
  obtain ⟨⟨firstRow, lastRow⟩, firstCol, lastCol⟩ := inside
  have above : i - 1 = fromOne.lower + (row - 1 : ℕ) := by omega
  have below : i + 1 = fromOne.lower + (row + 1 : ℕ) := by omega
  have before : j - 1 = fromOne.lower + (col - 1 : ℕ) := by omega
  have after : j + 1 = fromOne.lower + (col + 1 : ℕ) := by omega
  have inRows : ∀ row' ≤ row + 1, row' < fromOne.rows := fun row' near =>
    show row' < 100 by omega
  have inCols : ∀ col' ≤ col + 1, col' < fromOne.cols := fun col' near =>
    show col' < 100 by omega
  have rowAbove := inRows (row - 1) (by omega)
  have rowHere := inRows row (Nat.le_succ row)
  have rowBelow := inRows (row + 1) (Nat.le_refl _)
  have colBefore := inCols (col - 1) (by omega)
  have colHere := inCols col (Nat.le_succ col)
  have colAfter := inCols (col + 1) (Nat.le_refl _)
  rw [mlifeNextstate, Bounds.element_eq above before rowAbove colBefore,
    Bounds.element_eq above atCol rowAbove colHere,
    Bounds.element_eq above after rowAbove colAfter,
    Bounds.element_eq atRow before rowHere colBefore,
    Bounds.element_eq atRow after rowHere colAfter,
    Bounds.element_eq below before rowBelow colBefore,
    Bounds.element_eq below atCol rowBelow colHere,
    Bounds.element_eq below after rowBelow colAfter,
    Bounds.element_eq atRow atCol rowHere colHere]
  rfl

/-- A sweep assigns the new state of the interior and leaves the halo. -/
theorem sweep_gives {target : Array2} (fits : rows ≤ 98) (fits' : cols ≤ 98) :
    Gives (fromOne.fill 2 (rows + 1) 2 (cols + 1) (mlifeNextstate matrix) target) fun after =>
      ∀ row col, after row col =
        if Inside rows cols row col then nextstate matrix row col else target row col := by
  refine Gives.imp (Bounds.fill_gives 1 rows 1 cols (nextstate matrix) rfl (by omega) rfl (by omega)
    ?_ ?_ ?_) fun after filled row col => ?_
  · exact show 1 + rows ≤ 100 by omega
  · exact show 1 + cols ≤ 100 by omega
  · intro row col firstRow lastRow firstCol lastCol
    exact mlifeNextstate_eq rfl rfl fits fits' ⟨⟨firstRow, by omega⟩, firstCol, by omega⟩
  · rw [filled]
    refine if_congr ?_ rfl rfl
    unfold Inside
    omega

/-- Where `MLIFE2D_InitEdge` leaves live cells. -/
def AtEdge (rows cols row col : ℕ) : Prop := (rows ≤ row + 2 ∧ row ≤ rows) ∧ col = cols

instance (rows cols row col : ℕ) : Decidable (AtEdge rows cols row col) :=
  inferInstanceAs (Decidable ((_ ∧ _) ∧ _))

theorem mlife2dInitEdge_gives (fits : Fits rows cols) :
    Gives (mlife2dInitEdge rows cols matrix) fun after =>
      ∀ row ≤ rows + 1, ∀ col ≤ cols + 1, after row col = cell (AtEdge rows cols row col) := by
  obtain ⟨two, inRows, inCols⟩ := fits
  have clear : Gives (fromZero.fill 0 (rows + 1) 0 (cols + 1) (fun _ _ => .ok dies) matrix)
      fun after => ∀ row col, after row col =
        if (0 ≤ row ∧ row < 0 + (rows + 2)) ∧ 0 ≤ col ∧ col < 0 + (cols + 2) then dies
        else matrix row col := by
    refine Bounds.fill_gives 0 (rows + 2) 0 (cols + 2) (fun _ _ => dies) rfl (by omega) rfl
      (by omega) ?_ ?_ fun _ _ _ _ _ _ => rfl
    · exact show 0 + (rows + 2) ≤ 100 by omega
    · exact show 0 + (cols + 2) ≤ 100 by omega
  have inCol : cols < fromZero.cols := show cols < 100 by omega
  have assign : ∀ (i : Int) (row : ℕ) (array : Array2), i = row → row ≤ rows →
      Gives (fromZero.assign i cols born array) (· = array.replace row cols born) :=
    fun i row array atRow within => ⟨_, Bounds.assign_eq (atRow.trans (Int.zero_add _).symm)
      (Int.zero_add _).symm (show row < 100 by omega) inCol born, rfl⟩
  refine clear.bind fun cleared dead => ?_
  refine (assign (rows - 2) (rows - 2) cleared (by omega) (by omega)).bind fun first same => ?_
  subst same
  refine (assign (rows - 1) (rows - 1) _ (by omega) (by omega)).bind fun second same => ?_
  subst same
  refine (assign rows rows _ rfl (Nat.le_refl _)).imp fun third same row inRows' col inCols' => ?_
  subst same
  have background : cleared row col = dies := by
    rw [dead, if_pos (by omega)]
  simp only [Elements.replace, background]
  by_cases edge : AtEdge rows cols row col
  · rw [decide_eq_true edge]
    unfold AtEdge at edge
    split_ifs <;> first | rfl | omega
  · rw [decide_eq_false edge]
    unfold AtEdge at edge
    split_ifs <;> first | rfl | omega

theorem fits_of_mlife2dInitEdge {after : Array2}
    (finished : mlife2dInitEdge rows cols matrix = .ok after) : Fits rows cols := by
  obtain ⟨cleared, filled, later⟩ := bind_eq_ok.mp finished
  obtain ⟨_, assigned, _⟩ := bind_eq_ok.mp later
  have corner : fromZero.Within (0 + (rows + 1 : ℕ)) (0 + (cols + 1 : ℕ)) :=
    Bounds.within_of_fill (show (rows : Int) + 1 + 1 = 0 + (rows + 2 : ℕ) by omega)
      (show (cols : Int) + 1 + 1 = 0 + (cols + 2 : ℕ) by omega) filled (Nat.lt_succ_self _)
      (Nat.lt_succ_self _)
  have top := Bounds.within_of_assign assigned
  simp only [Bounds.Within, fromZero] at corner top
  constructor <;> omega

/-- Two elements of both arrays die. -/
theorem setDies_gives (row col row' col' : ℕ) {i j i' j' : Int} (atRow : i = fromOne.lower + row)
    (atCol : j = fromOne.lower + col) (atRow' : i' = fromOne.lower + row')
    (atCol' : j' = fromOne.lower + col') (inRows : row < fromOne.rows)
    (inCols : col < fromOne.cols) (inRows' : row' < fromOne.rows) (inCols' : col' < fromOne.cols) :
    Gives (arrays.setDies i j i' j') fun after =>
      after.matrix2 = (arrays.matrix2.replace row col dies).replace row' col' dies := by
  have here : ∀ array : Array2, fromOne.assign i j dies array = .ok (array.replace row col dies) :=
    fun array => Bounds.assign_eq atRow atCol inRows inCols dies
  have there : ∀ array : Array2,
      fromOne.assign i' j' dies array = .ok (array.replace row' col' dies) :=
    fun array => Bounds.assign_eq atRow' atCol' inRows' inCols' dies
  simp only [Arrays.setDies, here, there]
  exact ⟨_, rfl, rfl⟩

/-- What is dead stays so. -/
theorem replace_dies {row' col' : ℕ} (dead : matrix row col = dies ∨ row = row' ∧ col = col') :
    matrix.replace row' col' dies row col = dies := by
  rw [Elements.replace]
  split
  · rfl
  · rename_i other
    exact dead.resolve_right other

/-- The halo of `matrix2` is dead. -/
def DeadHalo2 (rows cols : ℕ) (arrays : Arrays) : Prop :=
  ∀ row ≤ rows + 1, ∀ col ≤ cols + 1, ¬ Inside rows cols row col → arrays.matrix2 row col = dies

/-- A loop that kills an element of two lines in each iteration leaves both lines dead, and what
was dead before. -/
theorem lines_die {last : Int} {count : ℕ} {body : Int → Arrays → Except Fault Arrays}
    (rowOf colOf rowOf' colOf' : ℕ → ℕ) (ends : last + 1 = 1 + count)
    (kills : ∀ n < count, ∀ current : Arrays, Gives (body (1 + n) current) fun after =>
      after.matrix2 =
        (current.matrix2.replace (rowOf n) (colOf n) dies).replace (rowOf' n) (colOf' n) dies) :
    Gives (doLoop 1 last 1 body arrays) fun after =>
      (∀ row col, arrays.matrix2 row col = dies → after.matrix2 row col = dies) ∧
        ∀ n < count, after.matrix2 (rowOf n) (colOf n) = dies ∧
          after.matrix2 (rowOf' n) (colOf' n) = dies := by
  refine doLoop_one_gives (I := fun done (after : Arrays) =>
    (∀ row col, arrays.matrix2 row col = dies → after.matrix2 row col = dies) ∧
      ∀ n < done, after.matrix2 (rowOf n) (colOf n) = dies ∧
        after.matrix2 (rowOf' n) (colOf' n) = dies) ends
    ⟨fun _ _ dead => dead, fun n none => absurd none (Nat.not_lt_zero n)⟩ ?_
  intro done inside current kept
  refine (kills done inside current).imp fun after same => ?_
  rw [same]
  have still : ∀ row col, current.matrix2 row col = dies →
      ((current.matrix2.replace (rowOf done) (colOf done) dies).replace (rowOf' done) (colOf' done)
        dies) row col = dies :=
    fun row col dead => replace_dies (.inl (replace_dies (.inl dead)))
  constructor
  · intro row col dead
    exact still row col (kept.1 row col dead)
  · intro n below
    rcases Nat.lt_succ_iff_lt_or_eq.mp below with less | rfl
    · exact ⟨still _ _ (kept.2 n less).1, still _ _ (kept.2 n less).2⟩
    · constructor
      · exact replace_dies (.inl (replace_dies (.inr ⟨rfl, rfl⟩)))
      · exact replace_dies (.inr ⟨rfl, rfl⟩)

theorem boundaries_gives (fits : rows ≤ 98) (fits' : cols ≤ 98) :
    Gives (arrays.boundaries rows cols) (DeadHalo2 rows cols) := by
  have inRows : ∀ row ≤ rows + 1, row < fromOne.rows := fun row within => show row < 100 by omega
  have inCols : ∀ col ≤ cols + 1, col < fromOne.cols := fun col within => show col < 100 by omega
  have corner : (rows : Int) + 2 = 1 + (rows + 1 : ℕ) := by omega
  have corner' : (cols : Int) + 2 = 1 + (cols + 1 : ℕ) := by omega
  have ends : ∀ size : ℕ, (size : Int) + 2 + 1 = 1 + (size + 2 : ℕ) := fun size => by omega
  have rowsDie : Gives (doLoop 1 (cols + 2) 1
      (fun j => Arrays.setDies 1 j (rows + 2) j) arrays) _ :=
    lines_die (fun _ => 0) (fun n => n) (fun _ => rows + 1) (fun n => n) (ends cols)
      fun n below current => setDies_gives 0 n (rows + 1) n rfl rfl corner rfl
        (inRows _ (Nat.zero_le _)) (inCols _ (by omega)) (inRows _ (Nat.le_refl _))
        (inCols _ (by omega))
  refine rowsDie.bind fun current dead => ?_
  have colsDie : Gives (doLoop 1 (rows + 2) 1
      (fun i => Arrays.setDies i 1 i (cols + 2)) current) _ :=
    lines_die (fun n => n) (fun _ => 0) (fun n => n) (fun _ => cols + 1) (ends rows)
      fun n below current => setDies_gives n 0 n (cols + 1) rfl rfl rfl corner'
        (inRows _ (by omega)) (inCols _ (Nat.zero_le _)) (inRows _ (by omega))
        (inCols _ (Nat.le_refl _))
  refine colsDie.imp fun after dead' row rowInside col colInside outside => ?_
  have edge : row = 0 ∨ row = rows + 1 ∨ col = 0 ∨ col = cols + 1 := by
    unfold Inside at outside
    omega
  rcases edge with rfl | rfl | rfl | rfl
  · exact dead'.1 _ _ (dead.2 col (by omega)).1
  · exact dead'.1 _ _ (dead.2 col (by omega)).2
  · exact (dead'.2 row (by omega)).1
  · exact (dead'.2 row (by omega)).2

/-- What the arrays of a process hold before the first checkpoint. -/
structure Initial (rows cols : ℕ) (arrays : Arrays) : Prop where
  edge : ∀ row ≤ rows + 1, ∀ col ≤ cols + 1,
    arrays.matrix row col = cell (AtEdge rows cols row col)
  halo2 : DeadHalo2 rows cols arrays

theorem initialise_gives (rand : Int → Int → Bool) (gFirstRow : ℕ) (fits : Fits rows cols) :
    Gives (arrays.initialise rand rows cols gFirstRow) (Initial rows cols) := by
  refine (boundaries_gives fits.rows_le fits.cols_le).bind fun bounded halo2 => ?_
  have random : Gives (fromOne.fill 1 rows 1 cols
      (fun i j => .ok (cell (rand (1000 + (i + gFirstRow - 1)) j))) bounded.matrix)
      fun _ => True := by
    have rowsFit := fits.rows_le
    have colsFit := fits.cols_le
    refine Gives.imp (Bounds.fill_gives 0 rows 0 cols
      (fun row col =>
        cell (rand (1000 + (fromOne.lower + row + gFirstRow - 1)) (fromOne.lower + col)))
      rfl (Int.add_comm _ _) rfl (Int.add_comm _ _) ?_ ?_ fun _ _ _ _ _ _ => rfl) fun _ _ => trivial
    · exact show 0 + rows ≤ 100 by omega
    · exact show 0 + cols ≤ 100 by omega
  refine random.bind fun filled _ => (mlife2dInitEdge_gives fits).bind fun edged edge => ?_
  exact gives_ok ⟨edge, halo2⟩

/-- A process that comes to its first checkpoint has a patch that fits. -/
theorem fits_of_initialise {rand : Int → Int → Bool} {gFirstRow : ℕ} {after : Arrays}
    (finished : arrays.initialise rand rows cols gFirstRow = .ok after) : Fits rows cols := by
  obtain ⟨_, _, later⟩ := bind_eq_ok.mp finished
  obtain ⟨_, _, later⟩ := bind_eq_ok.mp later
  obtain ⟨_, edged, _⟩ := bind_eq_ok.mp later
  exact fits_of_mlife2dInitEdge edged

end Process

/-! ### One generation -/

section Processes

variable {nprocs gRows gCols : ℕ} {dims : Dims nprocs} {exchange : Exchange dims gRows gCols}
  {grid : Grid} {k : ℕ} {arrays other : Fin nprocs → Array2}

/-- Every patch fits. -/
def AllFit (dims : Dims nprocs) (gRows gCols : ℕ) : Prop :=
  ∀ rank, Fits (dims.rowsOf gRows rank) (dims.colsOf gCols rank)

/-- The interiors of the patches hold generation `k`. -/
def Holds (dims : Dims nprocs) (gRows gCols : ℕ) (grid : Grid) (k : ℕ)
    (arrays : Fin nprocs → Array2) : Prop :=
  ∀ rank row col, Inside (dims.rowsOf gRows rank) (dims.colsOf gCols rank) row col →
    arrays rank row col = dims.target gRows gCols grid k rank row col

/-- Beyond the mesh, the patches that are not empty hold nothing alive. -/
def DeadBeyond (dims : Dims nprocs) (gRows gCols : ℕ) (arrays : Fin nprocs → Array2) : Prop :=
  ∀ rank row col, 1 ≤ dims.rowsOf gRows rank → 1 ≤ dims.colsOf gCols rank →
    row ≤ dims.rowsOf gRows rank + 1 → col ≤ dims.colsOf gCols rank + 1 →
    ¬ Inside gRows gCols (dims.rowOffset gRows rank + row) (dims.colOffset gCols rank + col) →
    arrays rank row col = dies

/-- After an exchange, a patch sees the mesh around it where it is not alive beyond the mesh. -/
theorem exchange_sees (holds : Holds dims gRows gCols grid k arrays) {rank : Fin nprocs}
    {row col : ℕ} (rows : 1 ≤ dims.rowsOf gRows rank) (cols : 1 ≤ dims.colsOf gCols rank)
    (inRows : row ≤ dims.rowsOf gRows rank + 1) (inCols : col ≤ dims.colsOf gCols rank + 1)
    (dead : ¬ Inside gRows gCols (dims.rowOffset gRows rank + row)
      (dims.colOffset gCols rank + col) → arrays rank row col = dies) :
    exchange.run arrays rank row col = dims.target gRows gCols grid k rank row col := by
  by_cases inMesh : Inside gRows gCols (dims.rowOffset gRows rank + row)
      (dims.colOffset gCols rank + col)
  · obtain ⟨owner, inPatch⟩ : ∃ owner, InPatch dims gRows gCols owner
        (dims.rowOffset gRows rank + row) (dims.colOffset gCols rank + col) :=
      exists_inPatch rank.pos inMesh
    obtain ⟨interior, atRow, atCol⟩ := inPatch.offset
    rw [exchange.within arrays rank owner row col _ _ rows cols inRows inCols interior atRow.symm
      atCol.symm, holds owner _ _ interior, Dims.target, atRow, atCol, Dims.target]
  · rw [exchange.beyond arrays rank row col rows cols inRows inCols inMesh, dead inMesh,
      Dims.target_outside inMesh]

theorem DeadBeyond.run (dead : DeadBeyond dims gRows gCols arrays) :
    DeadBeyond dims gRows gCols (exchange.run arrays) := by
  intro rank row col rows cols inRows inCols outside
  rw [exchange.beyond arrays rank row col rows cols inRows inCols outside]
  exact dead rank row col rows cols inRows inCols outside

theorem calculate_gives (fits : AllFit dims gRows gCols) :
    Gives (calculate dims gRows gCols arrays other) fun after => ∀ rank row col,
      after rank row col =
        if Inside (dims.rowsOf gRows rank) (dims.colsOf gCols rank) row col then
          nextstate (arrays rank) row col
        else other rank row col :=
  together_gives fun rank => sweep_gives (fits rank).rows_le (fits rank).cols_le

/-- From a generation that is surrounded by dead cells, the exchange and the sweep make the
next one. -/
theorem generation_gives (fits : AllFit dims gRows gCols)
    (holds : Holds dims gRows gCols grid k arrays) (dead : DeadBeyond dims gRows gCols arrays)
    (dead' : DeadBeyond dims gRows gCols other) :
    Gives (calculate dims gRows gCols (exchange.run arrays) other) fun after =>
      Holds dims gRows gCols grid (k + 1) after ∧ DeadBeyond dims gRows gCols after := by
  refine (calculate_gives fits).imp fun after calculated => ⟨?_, ?_⟩
  · intro rank row col inside
    have interior := inside
    obtain ⟨⟨firstRow, lastRow⟩, firstCol, lastCol⟩ := inside
    have rows : 1 ≤ dims.rowsOf gRows rank := firstRow.trans lastRow
    have cols : 1 ≤ dims.colsOf gCols rank := firstCol.trans lastCol
    rw [calculated, if_pos interior]
    refine nextstate_generation firstRow firstCol (Dims.inside_mesh interior) ?_
    intro i j _ below _ right
    have inRows : i ≤ dims.rowsOf gRows rank + 1 := below.trans (Nat.succ_le_succ lastRow)
    have inCols : j ≤ dims.colsOf gCols rank + 1 := right.trans (Nat.succ_le_succ lastCol)
    exact exchange_sees holds rows cols inRows inCols (dead rank i j rows cols inRows inCols)
  · intro rank row col rows cols inRows inCols outside
    rw [calculated, if_neg fun inside => outside (Dims.inside_mesh inside)]
    exact dead' rank row col rows cols inRows inCols outside

/-! ### The loop -/

def Event.isGeneration : Event nprocs → Bool
  | .generation => true
  | .checkpoint _ _ => false

/-- How many generations have been calculated. -/
def State.generations (state : State nprocs) : ℕ := state.events.countP Event.isGeneration

/-- Every checkpoint has a label from zero to `last`, and holds the generation of its label. -/
def Labelled (dims : Dims nprocs) (gRows gCols : ℕ) (grid : Grid) (last : ℕ)
    (events : List (Event nprocs)) : Prop :=
  ∀ (label : Int) (arrays : Fin nprocs → Array2), .checkpoint label arrays ∈ events →
    ∃ k ≤ last, label = k ∧ Holds dims gRows gCols grid k arrays

/-- The processes after `n` iterations, if all goes well. -/
structure Good (dims : Dims nprocs) (gRows gCols : ℕ) (grid : Grid) (n : ℕ)
    (state : State nprocs) : Prop where
  holds : Holds dims gRows gCols grid (2 * n) state.matrix
  dead : DeadBeyond dims gRows gCols state.matrix
  dead2 : DeadBeyond dims gRows gCols state.matrix2
  labelled : Labelled dims gRows gCols grid (2 * n) state.events

theorem Labelled.append {last : ℕ} {events : List (Event nprocs)} {label : Int}
    (labelled : Labelled dims gRows gCols grid last events) (next : label = (last + 1 : ℕ))
    (holds : Holds dims gRows gCols grid (last + 1) arrays) :
    Labelled dims gRows gCols grid (last + 1)
      (events ++ [.generation, .checkpoint label arrays]) := by
  intro label' arrays' listed
  rcases List.mem_append.mp listed with before | new
  · obtain ⟨k, within, same, holds⟩ := labelled label' arrays' before
    exact ⟨k, Nat.le_succ_of_le within, same, holds⟩
  · obtain ⟨rfl, rfl⟩ : label' = label ∧ arrays' = arrays := by simpa using new
    exact ⟨last + 1, Nat.le_refl _, next, holds⟩

/-- An iteration calculates two generations. -/
theorem iteration_gives (fits : AllFit dims gRows gCols) {n : ℕ} {state : State nprocs}
    (good : Good dims gRows gCols grid n state) :
    Gives (State.iteration exchange (1 + n * 2) state) (Good dims gRows gCols grid (n + 1)) := by
  refine (generation_gives fits good.holds good.dead good.dead2).bind fun matrix2 first => ?_
  refine (generation_gives fits first.1 first.2 good.dead.run).bind fun matrix second => ?_
  refine gives_ok ⟨second.1, second.2, first.2.run, ?_⟩
  refine (good.labelled.append ?_ first.1).append ?_ second.1
  · omega
  · omega

/-- What an iteration adds to the events. -/
theorem events_iteration {label : Int} {state after : State nprocs}
    (iterated : State.iteration exchange label state = .ok after) :
    ∃ matrix2 matrix,
      calculate dims gRows gCols (exchange.run state.matrix) state.matrix2 = .ok matrix2 ∧
      after.events = state.events ++ [.generation, .checkpoint label matrix2] ++
        [.generation, .checkpoint (label + 1) matrix] := by
  obtain ⟨matrix2, calculated, later⟩ := bind_eq_ok.mp iterated
  obtain ⟨matrix, _, last⟩ := bind_eq_ok.mp later
  cases last
  exact ⟨matrix2, matrix, calculated, rfl⟩

/-! ### The run -/

variable {ntimes : ℕ} {start : Fin nprocs → Arrays} {finish : State nprocs}

theorem tripCount_two (ntimes : ℕ) : tripCount 1 ntimes 2 = (ntimes + 1) / 2 := by
  rw [tripCount, show (ntimes : Int) - 1 + 2 = ((ntimes + 1 : ℕ) : Int) by omega]
  rfl

/-- The loop makes an even number of generations. -/
theorem generations_eq (finished : lifeFrom exchange ntimes start = .ok finish) :
    finish.generations = 2 * ((ntimes + 1) / 2) := by
  rw [← tripCount_two]
  refine doLoop_keeps (I := fun n state => State.generations state = 2 * n) rfl ?_ finished
  intro n state after counted iterated
  obtain ⟨_, _, _, events⟩ := events_iteration iterated
  rw [State.generations] at counted ⊢
  rw [events, List.countP_append, List.countP_append, counted]
  rfl

/-- If the loop is entered, it writes a checkpoint of what is calculated first. -/
theorem first_checkpoint (entered : 0 < ntimes)
    (finished : lifeFrom exchange ntimes start = .ok finish) :
    ∃ matrix2, calculate dims gRows gCols (exchange.run fun rank => (start rank).matrix)
      (fun rank => (start rank).matrix2) = .ok matrix2 ∧ .checkpoint 1 matrix2 ∈ finish.events := by
  have kept := doLoop_keeps (I := fun n (state : State nprocs) =>
    (n = 0 → state.matrix = (fun rank => (start rank).matrix) ∧
      state.matrix2 = fun rank => (start rank).matrix2) ∧
    (0 < n → ∃ matrix2, calculate dims gRows gCols (exchange.run fun rank => (start rank).matrix)
      (fun rank => (start rank).matrix2) = .ok matrix2 ∧
        Event.checkpoint 1 matrix2 ∈ state.events)) ⟨fun _ => ⟨rfl, rfl⟩, nofun⟩ ?_ finished
  · rw [tripCount_two] at kept
    exact kept.2 (by omega)
  · rintro n state after ⟨first, later⟩ iterated
    refine ⟨nofun, fun _ => ?_⟩
    obtain ⟨matrix2, matrix, calculated, events⟩ := events_iteration iterated
    rw [events]
    rcases Nat.eq_zero_or_pos n with rfl | started
    · obtain ⟨same, same2⟩ := first rfl
      rw [same, same2] at calculated
      refine ⟨matrix2, calculated, ?_⟩
      simp
    · obtain ⟨matrix2, calculated, listed⟩ := later started
      refine ⟨matrix2, calculated, ?_⟩
      simp [listed]

theorem lifeFrom_gives (fits : AllFit dims gRows gCols)
    (holds : Holds dims gRows gCols grid 0 fun rank => (start rank).matrix)
    (dead : DeadBeyond dims gRows gCols fun rank => (start rank).matrix)
    (dead2 : DeadBeyond dims gRows gCols fun rank => (start rank).matrix2) :
    Gives (lifeFrom exchange ntimes start) (Good dims gRows gCols grid ((ntimes + 1) / 2)) := by
  rw [← tripCount_two]
  refine doLoop_gives (I := Good dims gRows gCols grid) ⟨holds, dead, dead2, ?_⟩ ?_
  · intro label arrays listed
    obtain ⟨rfl, rfl⟩ : label = 0 ∧ arrays = fun rank => (start rank).matrix := by
      simpa using listed
    exact ⟨0, Nat.le_refl _, rfl, holds⟩
  · intro n _ state good
    exact iteration_gives fits good

/-! ### The initial arrays -/

/-- The arrays of all processes before the first checkpoint. -/
def AllInitial (dims : Dims nprocs) (gRows gCols : ℕ) (start : Fin nprocs → Arrays) : Prop :=
  ∀ rank, Initial (dims.rowsOf gRows rank) (dims.colsOf gCols rank) (start rank)

theorem initialArrays_gives (rand : Int → Int → Bool) (memory : Fin nprocs → Arrays)
    (fits : AllFit dims gRows gCols) :
    Gives (initialArrays dims gRows gCols rand memory) (AllInitial dims gRows gCols) :=
  together_gives fun rank => initialise_gives rand _ (fits rank)

theorem allFit_of_initialArrays {rand : Int → Int → Bool} {memory : Fin nprocs → Arrays}
    (finished : initialArrays dims gRows gCols rand memory = .ok start) :
    AllFit dims gRows gCols :=
  fun rank => fits_of_initialise (together_eq_ok.mp finished rank)

theorem inPatch_of_inside {rank : Fin nprocs} {row col : ℕ}
    (inside : Inside (dims.rowsOf gRows rank) (dims.colsOf gCols rank) row col) :
    InPatch dims gRows gCols rank (dims.rowOffset gRows rank + row)
      (dims.colOffset gCols rank + col) := by
  simp only [InPatch, Dims.meshDecomp, firstOf_eq]
  simp only [Inside, Dims.rowsOf, Dims.colsOf, lengthOf, firstOf_eq] at inside
  simp only [Dims.rowOffset, Dims.colOffset]
  refine ⟨⟨?_, ?_⟩, ?_, ?_⟩ <;> omega

/-- Whatever is alive in the patches is alive in some grid. -/
theorem exists_grid (dims : Dims nprocs) (gRows gCols : ℕ)
    (alive : Fin nprocs → ℕ → ℕ → Bool) :
    ∃ grid : Grid, ∀ rank row col,
    Inside (dims.rowsOf gRows rank) (dims.colsOf gCols rank) row col →
    grid (dims.rowOffset gRows rank + row) (dims.colOffset gCols rank + col) =
      alive rank row col := by
  classical
  refine ⟨fun row col => decide (∃ rank, InPatch dims gRows gCols rank row col ∧
    alive rank (row - dims.rowOffset gRows rank) (col - dims.colOffset gCols rank) = true),
    fun rank row col inside => ?_⟩
  have inPatch := inPatch_of_inside inside
  rw [Bool.eq_iff_iff, decide_eq_true_iff]
  constructor
  · rintro ⟨owner, inOwner, living⟩
    obtain rfl := inOwner.unique inPatch
    rwa [Nat.add_sub_cancel_left, Nat.add_sub_cancel_left] at living
  · intro living
    refine ⟨rank, inPatch, ?_⟩
    rwa [Nat.add_sub_cancel_left, Nat.add_sub_cancel_left]

/-- There is a grid that the initial arrays hold. -/
theorem AllInitial.exists_holds (initial : AllInitial dims gRows gCols start) :
    ∃ grid, Holds dims gRows gCols grid 0 fun rank => (start rank).matrix := by
  obtain ⟨grid, same⟩ := exists_grid dims gRows gCols
    fun rank row col => AtEdge (dims.rowsOf gRows rank) (dims.colsOf gCols rank) row col
  refine ⟨grid, fun rank row col inside => ?_⟩
  obtain ⟨⟨_, lastRow⟩, _, lastCol⟩ := id inside
  change (start rank).matrix row col = _
  rw [(initial rank).edge row (Nat.le_succ_of_le lastRow) col (Nat.le_succ_of_le lastCol),
    ← same rank row col inside, Dims.target, Grid.generation,
    Grid.restrict_inside (Dims.inside_mesh inside)]

theorem AllInitial.dead2 (initial : AllInitial dims gRows gCols start) :
    DeadBeyond dims gRows gCols fun rank => (start rank).matrix2 :=
  fun rank row col _ _ inRows inCols outside =>
    (initial rank).halo2 row inRows col inCols fun inside => outside (Dims.inside_mesh inside)

/-- A patch at the top of the mesh has three rows. -/
def TallTop (dims : Dims nprocs) (gRows gCols : ℕ) : Prop :=
  ∀ rank, dims.rowOffset gRows rank = 0 → 1 ≤ dims.colsOf gCols rank →
    3 ≤ dims.rowsOf gRows rank

/-- The initial arrays hold nothing alive beyond the mesh if the patches at its top are tall. -/
theorem AllInitial.dead (initial : AllInitial dims gRows gCols start)
    (tall : TallTop dims gRows gCols) :
    DeadBeyond dims gRows gCols fun rank => (start rank).matrix := by
  intro rank row col rows cols inRows inCols outside
  have lower : dims.rowOffset gRows rank + dims.rowsOf gRows rank ≤ gRows :=
    offsetBefore_add_le gRows (dims.prow_lt rank)
  have right : dims.colOffset gCols rank + dims.colsOf gCols rank ≤ gCols :=
    offsetBefore_add_le gCols (dims.pcol_lt rank)
  have high := tall rank
  change (start rank).matrix row col = dies
  rw [(initial rank).edge row inRows col inCols]
  have away : ¬ AtEdge (dims.rowsOf gRows rank) (dims.colsOf gCols rank) row col := by
    unfold AtEdge
    unfold Inside at outside
    omega
  rw [decide_eq_false away]
  rfl

end Processes

end HandsOn.Life.Fortran
