import Mathlib.Logic.Function.Basic
import HandsOn.Life.Conway
import HandsOn.Semantics.Loop

/-!
# A process's part of the Life matrix

Each process holds two allocations of its rows and columns with a halo of one
cell. `matrix` points to one and `temp` to the other, and the pointers are
swapped after each iteration. An entry `matrix[i][j]` of `cols` columns lies
`i * (cols + 2) + j` integers into its allocation.
-/

namespace HandsOn.Life

open HandsOn.Semantics

/-- `BORN` -/
def born : Int := 1

/-- `DIES` -/
def dies : Int := 0

/-- The value of a cell. -/
def cell (alive : Bool) : Int := if alive then born else dies

/-- The allocations of a process. -/
inductive Buffer where
  | mdata
  | tdata
deriving DecidableEq, Repr

/-- The other allocation. -/
def Buffer.swap : Buffer → Buffer
  | .mdata => .tdata
  | .tdata => .mdata

theorem Buffer.swap_ne (buffer : Buffer) : buffer.swap ≠ buffer := by
  cases buffer <;> decide

/-- What `matrix` points to after `k` swaps. -/
def matrixAt : ℕ → Buffer
  | 0 => .mdata
  | k + 1 => (matrixAt k).swap

/-- What `temp` points to after `k` swaps. -/
def tempAt (k : ℕ) : Buffer := (matrixAt k).swap

/-- An integer of an allocation. -/
abbrev Addr := Buffer × ℕ

abbrev Mem := Addr → Int

/-- Where `matrix[row][col]` lies in an allocation for `cols` columns. -/
def offset (cols row col : ℕ) : ℕ := row * (cols + 2) + col

/-- `matrix[row][col]`, with `matrix` pointing to `buffer`. -/
def entry (cols : ℕ) (buffer : Buffer) (row col : ℕ) : Addr := (buffer, offset cols row col)

/-- `count` consecutive integers from `address` on. -/
def consecutive (address : Addr) (count : ℕ) : List Addr :=
  (List.range count).map fun i => (address.1, address.2 + i)

/-- `count` integers from `address` on, `stride` apart. -/
def strided (address : Addr) (count stride : ℕ) : List Addr :=
  (List.range count).map fun i => (address.1, address.2 + i * stride)

/-- Row `row` of `matrix` after `k` swaps, with its halo entries. -/
def edge (cols k row : ℕ) : List Addr := consecutive (entry cols (matrixAt k) row 0) (cols + 2)

/-- Column `col` of `matrix` after `k` swaps, without its halo entries. -/
def column (rows cols k col : ℕ) : List Addr :=
  strided (entry cols (matrixAt k) 1 col) rows (cols + 2)

theorem offset_div (row : ℕ) {cols col : ℕ} (inRow : col < cols + 2) :
    offset cols row col / (cols + 2) = row := by
  rw [offset, Nat.add_comm, Nat.add_mul_div_right _ _ (Nat.succ_pos _), Nat.div_eq_of_lt inRow,
    Nat.zero_add]

theorem offset_mod (row : ℕ) {cols col : ℕ} (inRow : col < cols + 2) :
    offset cols row col % (cols + 2) = col := by
  rw [offset, Nat.add_comm, Nat.add_mul_mod_self_right, Nat.mod_eq_of_lt inRow]

/-- Different entries lie apart. -/
theorem entry_inj {cols row col row' col' : ℕ} {buffer buffer' : Buffer}
    (inRow : col < cols + 2) (inRow' : col' < cols + 2) :
    entry cols buffer row col = entry cols buffer' row' col' ↔
      buffer = buffer' ∧ row = row' ∧ col = col' := by
  constructor
  · intro same
    obtain ⟨sameBuffer, sameOffset⟩ := Prod.mk.inj same
    refine ⟨sameBuffer, ?_, ?_⟩
    · rw [← offset_div row inRow, sameOffset, offset_div row' inRow']
    · rw [← offset_mod row inRow, sameOffset, offset_mod row' inRow']
  · rintro ⟨rfl, rfl, rfl⟩
    rfl

theorem entry_ne {cols row col row' col' : ℕ} (buffer buffer' : Buffer)
    (inRow : col < cols + 2) (inRow' : col' < cols + 2) (apart : row ≠ row' ∨ col ≠ col') :
    entry cols buffer row col ≠ entry cols buffer' row' col' := by
  rw [Ne, entry_inj inRow inRow']
  omega

@[simp] theorem length_edge (cols k row : ℕ) : (edge cols k row).length = cols + 2 := by
  simp [edge, consecutive]

@[simp] theorem length_column (rows cols k col : ℕ) : (column rows cols k col).length = rows := by
  simp [column, strided]

theorem edge_getElem? {cols k row index : ℕ} {address : Addr} :
    (edge cols k row)[index]? = some address ↔
      index < cols + 2 ∧ address = entry cols (matrixAt k) row index := by
  simp only [edge, consecutive, List.getElem?_map, Option.map_eq_some_iff]
  grind [entry, offset]

theorem column_getElem? {rows cols k col index : ℕ} {address : Addr} :
    (column rows cols k col)[index]? = some address ↔
      index < rows ∧ address = entry cols (matrixAt k) (index + 1) col := by
  have next : offset cols 1 col + index * (cols + 2) = offset cols (index + 1) col := by
    rw [offset, offset, Nat.succ_mul index, Nat.one_mul]
    omega
  simp only [column, strided, List.getElem?_map, Option.map_eq_some_iff]
  grind [entry]

/-! ### The functions of the program -/

/-- `MLIFE_nextstate` -/
def nextstate (matrix : ℕ → ℕ → Int) (row col : ℕ) : Int :=
  let sum := matrix (row - 1) (col - 1) + matrix (row - 1) col + matrix (row - 1) (col + 1) +
    matrix row (col - 1) + matrix row (col + 1) + matrix (row + 1) (col - 1) +
    matrix (row + 1) col + matrix (row + 1) (col + 1)
  if sum < 2 ∨ sum > 3 then dies
  else if sum = 3 then born
  else matrix row col

/-- `matrix` as a function of the indices. -/
def view (cols : ℕ) (buffer : Buffer) (mem : Mem) (row col : ℕ) : Int :=
  mem (entry cols buffer row col)

/-- Assign to all non-boundary elements, row by row. -/
def fill (rows cols : ℕ) (buffer : Buffer) (value : Mem → ℕ → ℕ → Int) (mem : Mem) : Mem :=
  forLoop 1 (rows + 1) (fun i => forLoop 1 (cols + 1) fun j mem =>
    Function.update mem (entry cols buffer i j) (value mem i j)) mem

/-- Calculate the new state of all non-boundary elements. -/
def sweep (rows cols : ℕ) (matrix temp : Buffer) (mem : Mem) : Mem :=
  fill rows cols temp (fun mem => nextstate (view cols matrix mem)) mem

/-- Initialize one entry of the boundary. -/
def setDies (cols : ℕ) (buffer : Buffer) (row col : ℕ) (mem : Mem) : Mem :=
  Function.update mem (entry cols buffer row col) dies

/-- Initialize the boundaries of both matrices, and the interior of `matrix` from
`grid`. -/
def initialise (rows cols : ℕ) (grid : ℕ → ℕ → Int) (mem : Mem) : Mem :=
  let mem := forLoop 0 (cols + 2) (fun j mem =>
    setDies cols .mdata 0 j (setDies cols .mdata (rows + 1) j
      (setDies cols .tdata 0 j (setDies cols .tdata (rows + 1) j mem)))) mem
  let mem := forLoop 0 (rows + 2) (fun i mem =>
    setDies cols .mdata i 0 (setDies cols .mdata i (cols + 1)
      (setDies cols .tdata i 0 (setDies cols .tdata i (cols + 1) mem)))) mem
  fill rows cols .mdata (fun _ => grid) mem

/-- The interior rows of `matrix`. -/
def interior (rows cols : ℕ) (buffer : Buffer) (mem : Mem) : List (List Int) :=
  (List.range' 1 rows).map fun i => (List.range' 1 cols).map fun j => view cols buffer mem i j

/-! ### What they compute -/

/-- The program's comparisons decide Conway's rule. -/
theorem conway_eq (alive : Bool) (live : ℕ) :
    (if (live : Int) < 2 ∨ (live : Int) > 3 then dies
      else if (live : Int) = 3 then born else cell alive) = cell (conway alive live) := by
  match live with
  | 0 | 1 | 2 | 3 => cases alive <;> decide
  | live + 4 =>
      rw [if_pos (by omega)]
      cases alive <;> simp [conway, cell]

/-- On cell values, the new state is the one of Conway's rule. -/
theorem nextstate_eq {matrix : ℕ → ℕ → Int} {grid : Grid} {row col : ℕ}
    (cells : ∀ i j, row - 1 ≤ i → i ≤ row + 1 → col - 1 ≤ j → j ≤ col + 1 →
      matrix i j = cell (grid i j)) :
    nextstate matrix row col = cell (conway (grid row col) (liveNeighbours grid row col)) := by
  have value : ∀ alive, cell alive = (alive.toNat : Int) := by decide
  have count : ∀ alive : Bool, (if alive = true then 1 else 0) = alive.toNat := by decide
  have sum : matrix (row - 1) (col - 1) + matrix (row - 1) col + matrix (row - 1) (col + 1) +
      matrix row (col - 1) + matrix row (col + 1) + matrix (row + 1) (col - 1) +
      matrix (row + 1) col + matrix (row + 1) (col + 1) =
      (liveNeighbours grid row col : Int) := by
    rw [cells (row - 1) (col - 1) (by omega) (by omega) (by omega) (by omega),
      cells (row - 1) col (by omega) (by omega) (by omega) (by omega),
      cells (row - 1) (col + 1) (by omega) (by omega) (by omega) (by omega),
      cells row (col - 1) (by omega) (by omega) (by omega) (by omega),
      cells row (col + 1) (by omega) (by omega) (by omega) (by omega),
      cells (row + 1) (col - 1) (by omega) (by omega) (by omega) (by omega),
      cells (row + 1) col (by omega) (by omega) (by omega) (by omega),
      cells (row + 1) (col + 1) (by omega) (by omega) (by omega) (by omega)]
    simp only [liveNeighbours, neighbours, List.countP_cons, List.countP_nil, count, value]
    omega
  rw [← conway_eq, ← cells row col (by omega) (by omega) (by omega) (by omega), nextstate, sum]

/-- A part of a matrix that holds a generation around a position computes the next
generation there. -/
theorem nextstate_generation {matrix : ℕ → ℕ → Int} {grid : Grid}
    {rows cols k down right row col : ℕ} (firstRow : 1 ≤ row) (firstCol : 1 ≤ col)
    (inside : Inside rows cols (down + row) (right + col))
    (cells : ∀ i j, row - 1 ≤ i → i ≤ row + 1 → col - 1 ≤ j → j ≤ col + 1 →
      matrix i j = cell (grid.generation rows cols k (down + i) (right + j))) :
    nextstate matrix row col =
      cell (grid.generation rows cols (k + 1) (down + row) (right + col)) := by
  rw [nextstate_eq cells, liveNeighbours_shift _ down right firstRow firstCol, Grid.generation,
    Grid.next, Grid.restrict_inside inside]

/-- The new state depends on the entries around a position only. -/
theorem nextstate_congr {matrix matrix' : ℕ → ℕ → Int} {row col : ℕ}
    (same : ∀ i j, row - 1 ≤ i → i ≤ row + 1 → col - 1 ≤ j → j ≤ col + 1 →
      matrix i j = matrix' i j) : nextstate matrix row col = nextstate matrix' row col := by
  unfold nextstate
  rw [same (row - 1) (col - 1) (by omega) (by omega) (by omega) (by omega),
    same (row - 1) col (by omega) (by omega) (by omega) (by omega),
    same (row - 1) (col + 1) (by omega) (by omega) (by omega) (by omega),
    same row (col - 1) (by omega) (by omega) (by omega) (by omega),
    same row col (by omega) (by omega) (by omega) (by omega),
    same row (col + 1) (by omega) (by omega) (by omega) (by omega),
    same (row + 1) (col - 1) (by omega) (by omega) (by omega) (by omega),
    same (row + 1) col (by omega) (by omega) (by omega) (by omega),
    same (row + 1) (col + 1) (by omega) (by omega) (by omega) (by omega)]

/-- The loops leave every entry outside the interior of their buffer. -/
theorem fill_frame {rows cols : ℕ} {buffer : Buffer} {value : Mem → ℕ → ℕ → Int}
    {address : Addr}
    (outside : ∀ i j, 1 ≤ i → i ≤ rows → 1 ≤ j → j ≤ cols → address ≠ entry cols buffer i j)
    (mem : Mem) : fill rows cols buffer value mem address = mem address := by
  apply forLoop_preserves (P := fun after : Mem => after address = mem address) rfl
  intro i current first last same
  apply forLoop_preserves (P := fun after : Mem => after address = mem address) same
  intro j current first' last' same
  rwa [Function.update_of_ne (outside i j first (by omega) first' (by omega))]

/-- The loops assign every interior entry, if what they assign depends on other
buffers only. -/
theorem fill_interior {rows cols row col : ℕ} {buffer : Buffer} {value : Mem → ℕ → ℕ → Int}
    {mem : Mem}
    (stable : ∀ current : Mem, (∀ address : Addr, address.1 ≠ buffer →
      current address = mem address) → value current = value mem)
    (inside : Inside rows cols row col) :
    fill rows cols buffer value mem (entry cols buffer row col) = value mem row col := by
  obtain ⟨⟨firstRow, lastRow⟩, firstCol, lastCol⟩ := inside
  let others (current : Mem) : Prop :=
    ∀ address : Addr, address.1 ≠ buffer → current address = mem address
  have kept : ∀ (i j : ℕ) (current : Mem), others current →
      others (Function.update current (entry cols buffer i j) (value current i j)) := by
    intro i j current same address other
    rw [Function.update_of_ne (fun equal => other (congrArg Prod.fst equal)), same address other]
  refine forLoop_sets (I := others)
    (P := fun i current => current (entry cols buffer i col) = value mem i col)
    (fun _ _ => rfl) ?_ ?_ firstRow (by omega)
  · intro i current _ _ same
    constructor
    · exact forLoop_preserves same fun j current _ _ => kept i j current
    · refine forLoop_sets (I := others)
        (P := fun j current => current (entry cols buffer i j) = value mem i j) same ?_ ?_
        firstCol (by omega)
      · intro j current _ _ same
        exact ⟨kept i j current same, by rw [Function.update_self, stable current same]⟩
      · intro j later current _ before below set
        rwa [Function.update_of_ne (entry_ne _ _ (by omega) (by omega) (.inr (by omega)))]
  · intro i later current _ before _ set
    apply forLoop_preserves
      (P := fun after : Mem => after (entry cols buffer i col) = value mem i col) set
    intro j current _ below set
    rwa [Function.update_of_ne (entry_ne _ _ (by omega) (by omega) (.inl (by omega)))]

/-- The sweep leaves every entry outside the interior of `temp`. -/
theorem sweep_frame {rows cols : ℕ} {matrix temp : Buffer} {address : Addr}
    (outside : ∀ i j, 1 ≤ i → i ≤ rows → 1 ≤ j → j ≤ cols → address ≠ entry cols temp i j)
    (mem : Mem) : sweep rows cols matrix temp mem address = mem address :=
  fill_frame outside mem

/-- The sweep leaves the boundaries of both buffers. -/
theorem sweep_outside {rows cols row col : ℕ} {matrix temp buffer : Buffer}
    (inRow : col < cols + 2) (outside : ¬ Inside rows cols row col) (mem : Mem) :
    sweep rows cols matrix temp mem (entry cols buffer row col) =
        mem (entry cols buffer row col) := by
  refine sweep_frame (fun i j _ _ _ _ => ?_) mem
  unfold Inside at outside
  exact entry_ne _ _ inRow (by omega) (by omega)

/-- The sweep stores the new state of every interior entry in `temp`. -/
theorem sweep_interior {rows cols row col : ℕ} {matrix temp : Buffer} (different : temp ≠ matrix)
    (inside : Inside rows cols row col) (mem : Mem) :
    sweep rows cols matrix temp mem (entry cols temp row col) =
      nextstate (view cols matrix mem) row col := by
  have stable : ∀ current : Mem, (∀ address : Addr, address.1 ≠ temp →
      current address = mem address) →
      nextstate (view cols matrix current) = nextstate (view cols matrix mem) := by
    intro current same
    have agree : view cols matrix current = view cols matrix mem := by
      ext i j
      exact same _ different.symm
    rw [agree]
  exact fill_interior stable inside

/-! ### The initial matrices -/

theorem setDies_eq {cols row col : ℕ} {buffer : Buffer} {mem : Mem} {address : Addr}
    (dead : address = entry cols buffer row col ∨ mem address = dies) :
    setDies cols buffer row col mem address = dies := by
  unfold setDies
  rw [Function.update_apply]
  split
  · rfl
  · next other => exact dead.resolve_left other

theorem initialise_interior {rows cols row col : ℕ} (inside : Inside rows cols row col)
    (grid : ℕ → ℕ → Int) (mem : Mem) :
    initialise rows cols grid mem (entry cols .mdata row col) = grid row col :=
  fill_interior (fun _ _ => rfl) inside

/-- The boundaries of both matrices are dead. -/
theorem initialise_boundary {rows cols row col : ℕ} (inRows : row ≤ rows + 1)
    (inCols : col ≤ cols + 1) (edge : (row = 0 ∨ row = rows + 1) ∨ col = 0 ∨ col = cols + 1)
    (grid : ℕ → ℕ → Int) (buffer : Buffer) (mem : Mem) :
    initialise rows cols grid mem (entry cols buffer row col) = dies := by
  rw [initialise, fill_frame]
  · rcases edge with edgeRow | edgeCol
    · apply forLoop_preserves (P := fun mem : Mem => mem (entry cols buffer row col) = dies)
      · refine forLoop_sets (I := fun _ => True)
          (P := fun j (mem : Mem) => mem (entry cols buffer row j) = dies) trivial ?_ ?_
          (Nat.zero_le col) (show col < cols + 2 by omega)
        · intro j current _ _ _
          refine ⟨trivial, ?_⟩
          rcases edgeRow with rfl | rfl <;> cases buffer <;> simp [setDies, Function.update_apply]
        · intro j later current _ _ _ dead
          exact setDies_eq (.inr (setDies_eq (.inr (setDies_eq (.inr (setDies_eq (.inr dead)))))))
      · intro i current _ _ dead
        exact setDies_eq (.inr (setDies_eq (.inr (setDies_eq (.inr (setDies_eq (.inr dead)))))))
    · refine forLoop_sets (I := fun _ => True)
        (P := fun i (mem : Mem) => mem (entry cols buffer i col) = dies) trivial ?_ ?_
        (Nat.zero_le row) (show row < rows + 2 by omega)
      · intro i current _ _ _
        refine ⟨trivial, ?_⟩
        rcases edgeCol with rfl | rfl <;> cases buffer <;> simp [setDies, Function.update_apply]
      · intro i later current _ _ _ dead
        exact setDies_eq (.inr (setDies_eq (.inr (setDies_eq (.inr (setDies_eq (.inr dead)))))))
  · intro i j firstRow lastRow firstCol lastCol
    exact entry_ne _ _ (by omega) (by omega) (by omega)

end HandsOn.Life
