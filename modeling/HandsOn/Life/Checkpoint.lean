import HandsOn.Life.RowBlock
import HandsOn.Mpi.File

/-!
# What the checkpoints of row blocks share

The MPI-IO and the PnetCDF checkpoints describe a rank's rows, without their halo, by the
same derived datatype. Grids here have their first row and column at `0`, as the files do.
-/

namespace HandsOn.Life

open HandsOn.Mpi

variable {rows cols nprocs : ℕ}

/-- The address of `matrix[i][j]`: rows of `cols + 2` ints in one allocation. -/
def address (matrix : Int) (cols i j : ℕ) : Int := matrix + 4 * offset cols i j

/-- `MLIFEIO_Type_create_rowblk`, where `MPI_INTEGER` has the size of `int`. -/
def typeCreateRowblk (matrix : Int) (myrows cols : ℕ) : Datatype :=
  let vectype := Datatype.int.vector myrows cols (cols + 2)
  vectype.hindexed 1 [1] [address matrix cols 1 1]

/-- `count` rows of a grid from `first` on, row by row. -/
def rowMajor (grid : ℕ → ℕ → Int32) (cols first count : ℕ) : List Int32 :=
  (List.range' first count).flatMap fun row => (List.range cols).map (grid row)

/-- `count` rows of a grid from `first` on, column by column. -/
def columnMajor (grid : ℕ → ℕ → Int32) (cols first count : ℕ) : List Int32 :=
  (List.range cols).flatMap fun col => (List.range' first count).map fun row => grid row col

/-- The interior of `matrix` holds the block of a rank. -/
def HoldsBlock (int : Native Int32 4) (rows cols nprocs : ℕ) (grid : ℕ → ℕ → Int32) (rank : ℕ)
    (memory : Memory) (matrix : Int) : Prop :=
  ∀ i < myrows rows rank nprocs, ∀ j < cols,
    memory.load int (address matrix cols (i + 1) (j + 1)) =
      grid (myrowoffset rows rank nprocs + i) j

/-- The elements of a row block are the cells of its interior, row by row. -/
theorem typemap_rowblk (matrix : Int) (myrows cols : ℕ) :
    (typeCreateRowblk matrix myrows cols).typemap =
      ((List.range myrows).flatMap fun i => (List.range cols).map fun j =>
        address matrix cols (i + 1) (j + 1)).map fun place => (place, 4) := by
  have moved : typeCreateRowblk matrix myrows cols =
      (Datatype.int.vector myrows cols (cols + 2)).shift (address matrix cols 1 1) := by
    simp [typeCreateRowblk, Datatype.hindexed, Datatype.concat]
  rw [moved, Datatype.shift, Datatype.typemap_vector_basic, List.map_flatMap, List.map_flatMap]
  refine List.flatMap_congr fun i _ => ?_
  rw [List.map_map, List.map_map]
  refine List.map_congr_left fun j _ => Prod.ext ?_ rfl
  simp only [Function.comp, address, offset]
  push_cast
  ring

theorem HoldsBlock.places {int : Native Int32 4} {grid : ℕ → ℕ → Int32} {rank : ℕ}
    {memory : Memory} {matrix : Int}
    (holds : HoldsBlock int rows cols nprocs grid rank memory matrix) :
    ((List.range (myrows rows rank nprocs)).flatMap fun i => (List.range cols).map fun j =>
        address matrix cols (i + 1) (j + 1)).map (memory.load int) =
      rowMajor grid cols (myrowoffset rows rank nprocs) (myrows rows rank nprocs) := by
  rw [rowMajor, List.range'_eq_map_range, List.map_flatMap, List.flatMap_map]
  refine List.flatMap_congr fun i inRows => ?_
  rw [List.map_map]
  exact List.map_congr_left fun j inCols =>
    holds i (List.mem_range.mp inRows) j (List.mem_range.mp inCols)

theorem HoldsBlock.pack {int : Native Int32 4} {grid : ℕ → ℕ → Int32} {rank : ℕ}
    {memory : Memory} {matrix : Int}
    (holds : HoldsBlock int rows cols nprocs grid rank memory matrix) :
    memory.pack (typeCreateRowblk matrix (myrows rows rank nprocs) cols) = int.encodeAll
      (rowMajor grid cols (myrowoffset rows rank nprocs) (myrows rows rank nprocs)) :=
  memory.pack_eq_encodeAll int _ (typemap_rowblk _ _ _) holds.places

theorem length_rowMajor (grid : ℕ → ℕ → Int32) (cols first count : ℕ) :
    (rowMajor grid cols first count).length = count * cols := by
  simp [rowMajor]

theorem rowMajor_append (grid : ℕ → ℕ → Int32) (cols first count more : ℕ) :
    rowMajor grid cols first (count + more) =
      rowMajor grid cols first count ++ rowMajor grid cols (first + count) more := by
  rw [rowMajor, ← List.range'_append_1, List.flatMap_append]
  rfl

/-- The entries of rows of one length, one row after the other. -/
theorem flatMap_map_getElem? {Entry : Type} (entry : ℕ → ℕ → Entry) {count cols i j : ℕ}
    (inRows : i < count) (inCols : j < cols) :
    ((List.range count).flatMap fun row => (List.range cols).map (entry row))[i * cols + j]? =
      some (entry i j) := by
  rw [flatMap_getElem? (fun _ => by rw [List.length_map, List.length_range])
    (List.getElem?_range inRows) inCols, List.getElem?_map, List.getElem?_range inCols]
  rfl

theorem rowMajor_getElem? (grid : ℕ → ℕ → Int32) {cols count i j : ℕ} (first : ℕ)
    (inRows : i < count) (inCols : j < cols) :
    (rowMajor grid cols first count)[i * cols + j]? = some (grid (first + i) j) := by
  rw [rowMajor, List.range'_eq_map_range, List.flatMap_map]
  exact flatMap_map_getElem? (fun row => grid (first + row)) inRows inCols

/-- The blocks of consecutive ranks are consecutive rows. -/
theorem rowMajor_flatMap (grid : ℕ → ℕ → Int32) (rows cols nprocs first count : ℕ) :
    ((List.range count).flatMap fun rank => rowMajor grid cols
        (myrowoffset rows (first + rank) nprocs) (myrows rows (first + rank) nprocs)) =
      rowMajor grid cols (myrowoffset rows first nprocs)
        (myrowoffset rows (first + count) nprocs - myrowoffset rows first nprocs) := by
  induction count with
  | zero => simp [rowMajor]
  | succ count ih =>
      have ordered := myrowoffset_mono rows nprocs (Nat.le_add_right first count)
      have grown : myrowoffset rows (first + (count + 1)) nprocs - myrowoffset rows first nprocs =
          myrowoffset rows (first + count) nprocs - myrowoffset rows first nprocs +
            myrows rows (first + count) nprocs := by
        rw [← Nat.add_assoc, myrowoffset_succ]
        omega
      rw [List.range_succ, List.flatMap_append, ih, List.flatMap_singleton, grown, rowMajor_append,
        Nat.add_sub_cancel' ordered]

/-- Any block can be held. -/
theorem holdsBlock_image (int : Native Int32 4) (rows cols nprocs : ℕ) (grid : ℕ → ℕ → Int32)
    (rank : ℕ) : HoldsBlock int rows cols nprocs grid rank
      (Memory.image int fun index =>
        grid (myrowoffset rows rank nprocs + index / (cols + 2) - 1)
          (index % (cols + 2) - 1)) 0 := by
  intro i _ j inCols
  have place : address 0 cols (i + 1) (j + 1) = ((offset cols (i + 1) (j + 1) * 4 : ℕ) : Int) := by
    rw [address]
    push_cast
    ring
  rw [place, Memory.load_image, offset_div _ (by omega), offset_mod _ (by omega)]
  rfl

/-- A block of one column reads the same in both orders. -/
theorem rowMajor_one_col (grid : ℕ → ℕ → Int32) (first count : ℕ) :
    rowMajor grid 1 first count = columnMajor grid 1 first count := by
  simp only [rowMajor, columnMajor, List.range_one, List.map_cons, List.map_nil,
    List.flatMap_singleton]
  exact List.flatMap_pure_eq_map _ _

/-- A block of at most one row reads the same in both orders. -/
theorem rowMajor_one_row (grid : ℕ → ℕ → Int32) (cols first : ℕ) {count : ℕ} (few : count ≤ 1) :
    rowMajor grid cols first count = columnMajor grid cols first count := by
  rcases Nat.le_one_iff_eq_zero_or_eq_one.mp few with rfl | rfl
  · simp [rowMajor, columnMajor]
  · simp only [rowMajor, columnMajor, List.range'_one, List.map_cons, List.map_nil,
      List.flatMap_singleton]
    exact (List.flatMap_pure_eq_map _ _).symm

/-- Any larger block does not, for some grid. -/
theorem rowMajor_ne_columnMajor {cols count : ℕ} (first : ℕ) (manyCols : 2 ≤ cols)
    (manyRows : 2 ≤ count) : rowMajor (fun _ col => if col = 0 then 0 else 1) cols first count ≠
      columnMajor (fun _ col => if col = 0 then 0 else 1) cols first count := by
  obtain ⟨cols, rfl⟩ := Nat.exists_eq_add_of_le' manyCols
  obtain ⟨count, rfl⟩ := Nat.exists_eq_add_of_le' manyRows
  intro same
  have second := congrArg (fun cells => cells[1]?) same
  simp [rowMajor, columnMajor, List.range'_succ, List.range_succ_eq_map] at second

end HandsOn.Life
