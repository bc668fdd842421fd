import HandsOn.Daos.Interoperate
import HandsOn.Mpi.View
import HandsOn.Netcdf.Hyperslab
import HandsOn.Semantics.CheckedInt

/-!
# The middle column of the array

Each rank writes `YDIM` rows of an array and reads the middle column of all rows. `read_buf` has
one element for each rank, not for each row: `array-mpiio-write-read` reads as many elements as
there are ranks, `array-pnetcdf-write-read` as many as there are rows. Elements are computed
modulo 2^32; a product of `int`s that is a size or an offset has no value if it overflows.
-/

namespace HandsOn.Arrays

open Mpi Netcdf Semantics.CheckedInt
open Daos (bufferCreate Science readScience)

/-- The constants of `array.h`, and the number of ranks. -/
structure Shape where
  nprocs : ℕ
  xdim : ℕ
  ydim : ℕ
  nprocs_pos : 0 < nprocs
  xdim_pos : 0 < xdim
  ydim_pos : 0 < ydim
  nprocs_lt : nprocs < 2 ^ 31
  xdim_lt : xdim < 2 ^ 31
  ydim_lt : ydim < 2 ^ 31

namespace Shape

variable (shape : Shape)

/-- What `buffer_create` returns to a rank. -/
def values (rank : ℕ) : List Int32 := bufferCreate rank shape.xdim shape.ydim

/-- The ranks' buffers, one after the other. -/
def stacked : List Int32 := (List.range shape.nprocs).flatMap shape.values

/-- An element of the stacked array. -/
def element (row col : ℕ) : Int32 := shape.stacked.getD (row * shape.xdim + col) 0

/-- The elements at column `XDIM/2` of all rows. -/
def middleColumn : List Int32 :=
  (List.range (shape.nprocs * shape.ydim)).map fun row => shape.element row (shape.xdim / 2)

/-- What is stored from `read_buf` on is the middle column, and `read_buf` has room for it. -/
def ReadsColumn (stored : List Int32) : Prop :=
  stored = shape.middleColumn ∧ stored.length ≤ shape.nprocs

end Shape

section Programs

variable (int : Native Int32 4) (shape : Shape)

/-- `write_data` of `array-mpiio-write-read.c` -/
def mpiioWriteData (rank : ℕ) : Option (List (Int × UInt8)) := do
  let _count ← mul? (Int32.ofNat shape.xdim) (Int32.ofNat shape.ydim)
  let row ← mul? (Int32.ofNat shape.nprocs) (Int32.ofNat shape.ydim)
  let header : Science := ⟨row, Int32.ofNat shape.xdim, 1⟩
  let before ← mul? (Int32.ofNat rank) (Int32.ofNat shape.xdim)
  let offset ← mul? before (Int32.ofNat shape.ydim)
  return (if rank = 0 then writeAt 0 (int.encodeAll header.fields) else []) ++
    writeAt (12 + offset.toInt * 4) (int.encodeAll (shape.values rank))

/-- What the ranks may leave in the file. -/
def MpiioWritten (file : File) : Prop :=
  ∃ writes, (∀ rank < shape.nprocs, mpiioWriteData int shape rank = some (writes rank)) ∧
    Written (collective shape.nprocs writes) file

/-- What `read_data` of `array-mpiio-write-read.c` stores in `read_buf`. -/
def mpiioReadData (file : File) (old : List Int32) : List Int32 :=
  let subarray := Datatype.subarray [shape.nprocs, shape.xdim] [shape.nprocs, 1]
    [0, shape.xdim / 2] Datatype.int
  readView int file 12 subarray old

/-- A netCDF file with the variable `array` and its attribute. -/
structure Dataset where
  rows : ℕ
  elements : ℕ
  array : List ℕ → Int32
  iteration : Int32

/-- `write_data` of `array-pnetcdf-write-read.c`, after the definitions. -/
def pnetcdfWriteData (rank : ℕ) : Option (List (List ℕ × Int32)) := do
  let _size ← mul? (Int32.ofNat shape.xdim) (Int32.ofNat shape.ydim)
  let start ← mul? (Int32.ofNat rank) (Int32.ofNat shape.ydim)
  return putVara [start.toInt.toNat, 0] [shape.ydim, shape.xdim] (shape.values rank)

/-- What the ranks may leave in the dataset. -/
structure PnetcdfWritten (dataset : Dataset) : Prop where
  rows : ∃ rows, mul? (Int32.ofNat shape.ydim) (Int32.ofNat shape.nprocs) = some rows ∧
    dataset.rows = rows.toInt.toNat
  elements : dataset.elements = shape.xdim
  iteration : dataset.iteration = 1
  array : ∃ writes, (∀ rank < shape.nprocs, pnetcdfWriteData shape rank = some (writes rank)) ∧
    Holds (collective shape.nprocs writes) dataset.array

/-- What `read_data` of `array-pnetcdf-write-read.c` stores from `read_buf` on. -/
def pnetcdfReadData (dataset : Dataset) : List Int32 :=
  getVara dataset.array [0, shape.xdim / 2] [dataset.rows, 1]

/-- What is written can be read back: `header` counts the rows, and each rank finds the middle
column in its `read_buf`. -/
def MpiioReadsColumn : Prop :=
  (∃ file, MpiioWritten int shape file) ∧ ∀ file, MpiioWritten int shape file →
    (∀ header, (readScience int file 0 header).row.toInt = (shape.nprocs * shape.ydim : ℕ)) ∧
    ∀ old : List Int32, old.length = shape.nprocs →
      shape.ReadsColumn (mpiioReadData int shape file old)

def PnetcdfReadsColumn : Prop :=
  (∃ dataset, PnetcdfWritten shape dataset) ∧ ∀ dataset, PnetcdfWritten shape dataset →
    dataset.rows = shape.nprocs * shape.ydim ∧ shape.ReadsColumn (pnetcdfReadData shape dataset)

end Programs

/-! ### The stacked array -/

/-- An element of a row is one of the rows' elements. -/
theorem entry_lt {row rows col cols : ℕ} (inRows : row < rows) (inCols : col < cols) :
    row * cols + col < rows * cols :=
  calc row * cols + col
      < (row + 1) * cols := by rw [Nat.succ_mul]; omega
    _ ≤ rows * cols := Nat.mul_le_mul_right _ inRows

namespace Shape

variable {shape : Shape}

theorem length_values (rank : ℕ) : (shape.values rank).length = shape.xdim * shape.ydim := by
  rw [values, bufferCreate, List.length_map, List.length_range]

theorem length_stacked : shape.stacked.length = shape.nprocs * (shape.xdim * shape.ydim) := by
  rw [stacked, List.length_flatMap, List.map_congr_left fun rank _ => length_values rank,
    List.map_const', List.length_range, List.sum_replicate_nat]

theorem getElem?_stacked {row col : ℕ} (inRows : row < shape.nprocs * shape.ydim)
    (inCols : col < shape.xdim) :
    shape.stacked[row * shape.xdim + col]? = some (shape.element row col) := by
  have inside : row * shape.xdim + col < shape.stacked.length := by
    rw [length_stacked, Nat.mul_comm shape.xdim, ← Nat.mul_assoc]
    exact entry_lt inRows inCols
  rw [element, List.getD_eq_getElem?_getD, List.getElem?_eq_getElem inside, Option.getD_some]

/-- A rank's rows in the stacked array. -/
theorem element_eq {rank row col : ℕ} (bounded : rank < shape.nprocs) (inRows : row < shape.ydim)
    (inCols : col < shape.xdim) :
    (shape.values rank)[row * shape.xdim + col]? =
      some (shape.element (rank * shape.ydim + row) col) := by
  have below := entry_lt bounded inRows
  have entry := entry_lt inRows inCols
  rw [Nat.mul_comm shape.ydim] at entry
  have place : (rank * shape.ydim + row) * shape.xdim + col =
      rank * (shape.xdim * shape.ydim) + (row * shape.xdim + col) := by ring
  rw [← getElem?_stacked below inCols, place]
  exact (flatMap_getElem? length_values (List.getElem?_range bounded) entry).symm

theorem middle_lt : shape.xdim / 2 < shape.xdim := Nat.div_lt_self shape.xdim_pos (by decide)

theorem length_middleColumn : shape.middleColumn.length = shape.nprocs * shape.ydim := by
  rw [middleColumn, List.length_map, List.length_range]

/-- `read_buf` has room for the middle column exactly if every rank has one row. -/
theorem readsColumn_iff : shape.ReadsColumn shape.middleColumn ↔ shape.ydim = 1 := by
  rw [ReadsColumn, length_middleColumn]
  constructor
  · rintro ⟨_, fits⟩
    have one := Nat.le_of_mul_le_mul_left (fits.trans_eq (Nat.mul_one _).symm) shape.nprocs_pos
    exact Nat.le_antisymm one shape.ydim_pos
  · intro one
    exact ⟨rfl, by rw [one, Nat.mul_one]⟩

end Shape

/-! ### `array-mpiio-write-read` -/

section Mpiio

variable {int : Native Int32 4} {shape : Shape}

/-- No product of `array-mpiio-write-read` overflows. -/
structure Shape.Fits (shape : Shape) : Prop where
  count : shape.xdim * shape.ydim < 2 ^ 31
  rows : shape.nprocs * shape.ydim < 2 ^ 31
  before : ∀ rank < shape.nprocs, rank * shape.xdim < 2 ^ 31
  offset : ∀ rank < shape.nprocs, rank * shape.xdim * shape.ydim < 2 ^ 31

/-- The header in the file. -/
def headerOf (shape : Shape) : Science :=
  ⟨Int32.ofNat (shape.nprocs * shape.ydim), Int32.ofNat shape.xdim, 1⟩

theorem length_header : (int.encodeAll (headerOf shape).fields).length = 12 := by
  rw [int.length_encodeAll]
  rfl

/-- With one row for each rank, all products are as small as the offsets of the rows. -/
theorem Shape.Fits.of_one (one : shape.ydim = 1)
    (small : (shape.nprocs - 1) * shape.xdim < 2 ^ 31) : shape.Fits := by
  have before : ∀ rank < shape.nprocs, rank * shape.xdim < 2 ^ 31 := fun rank bounded =>
    (Nat.mul_le_mul_right _ (Nat.le_sub_one_of_lt bounded)).trans_lt small
  constructor
  · rw [one, Nat.mul_one]
    exact shape.xdim_lt
  · rw [one, Nat.mul_one]
    exact shape.nprocs_lt
  · exact before
  · intro rank bounded
    rw [one, Nat.mul_one]
    exact before rank bounded

theorem mpiioWriteData_eq (fits : shape.Fits) {rank : ℕ} (bounded : rank < shape.nprocs) :
    mpiioWriteData int shape rank =
      some ((if rank = 0 then writeAt 0 (int.encodeAll (headerOf shape).fields) else []) ++
        writeAt (12 + ((rank * (shape.xdim * shape.ydim) * 4 : ℕ) : Int))
          (int.encodeAll (shape.values rank))) := by
  have offset := fits.offset rank bounded
  rw [mpiioWriteData, mul?_ofNat shape.xdim_lt shape.ydim_lt fits.count,
    mul?_ofNat shape.nprocs_lt shape.ydim_lt fits.rows,
    mul?_ofNat (bounded.trans shape.nprocs_lt) shape.xdim_lt (fits.before rank bounded)]
  simp only [Option.bind_eq_bind, Option.bind_some]
  rw [mul?_ofNat (fits.before rank bounded) shape.ydim_lt offset, Option.bind_some,
    toInt_ofNat offset, headerOf, Nat.mul_assoc]
  push_cast
  rfl

/-- The ranks write the header and the stacked array once. -/
theorem mpiio_once {writes : ℕ → List (Int × UInt8)} (fits : shape.Fits)
    (wrote : ∀ rank < shape.nprocs, mpiioWriteData int shape rank = some (writes rank)) :
    (collective shape.nprocs writes).Perm
      (writeAt 0 (int.encodeAll (headerOf shape).fields ++ int.encodeAll shape.stacked)) := by
  have same : collective shape.nprocs writes = collective shape.nprocs fun rank =>
      (if rank = 0 then writeAt 0 (int.encodeAll (headerOf shape).fields) else []) ++
        writeAt (12 + ((rank * (shape.xdim * shape.ydim) * 4 : ℕ) : Int))
          (int.encodeAll (shape.values rank)) := by
    refine List.flatMap_congr fun rank listed => ?_
    have bounded := List.mem_range.mp listed
    exact Option.some.inj ((wrote rank bounded).symm.trans (mpiioWriteData_eq fits bounded))
  have blocks : int.encodeAll shape.stacked =
      (List.range shape.nprocs).flatMap fun rank => int.encodeAll (shape.values rank) :=
    List.flatMap_assoc
  have rest := collective_writeAt shape.nprocs
    (fun rank => 12 + ((rank * (shape.xdim * shape.ydim) * 4 : ℕ) : Int))
    (fun rank => int.encodeAll (shape.values rank)) (fun rank => ?_)
  · rw [same]
    refine (collective_append_perm _ _ _).trans (List.Perm.of_eq ?_)
    rw [rest, collective, flatMap_range_first shape.nprocs_pos, writeAt_append, length_header,
      blocks]
    simp
  · rw [int.length_encodeAll, Shape.length_values]
    push_cast
    ring

/-- The header and the stacked array are in the file. -/
theorem MpiioWritten.has {file : File} (fits : shape.Fits) (written : MpiioWritten int shape file) :
    Has file 0 (int.encodeAll (headerOf shape).fields) ∧
      Has file 12 (int.encodeAll shape.stacked) := by
  obtain ⟨writes, wrote, outcome⟩ := written
  have document := has_append.mp (outcome.has_document (mpiio_once fits wrote))
  rw [length_header, Int.zero_add] at document
  exact document

theorem exists_mpiioWritten (fits : shape.Fits) : ∃ file, MpiioWritten int shape file := by
  obtain ⟨file, outcome⟩ := exists_outcome (collective shape.nprocs fun rank =>
    (mpiioWriteData int shape rank).getD [])
  refine ⟨file, fun rank => (mpiioWriteData int shape rank).getD [], fun rank bounded => ?_,
    fun position => ?_⟩
  · simp only [mpiioWriteData_eq fits bounded, Option.getD_some]
  · exact (outcome position).imp And.left id

/-- A file that can have been written has no overflow behind it. -/
theorem MpiioWritten.last_before {file : File} (written : MpiioWritten int shape file) :
    (shape.nprocs - 1) * shape.xdim < 2 ^ 31 := by
  obtain ⟨writes, wrote, _⟩ := written
  by_contra past
  have last : shape.nprocs - 1 < shape.nprocs := Nat.sub_lt shape.nprocs_pos Nat.one_pos
  have overflows := mul?_ofNat_eq_none (last.trans shape.nprocs_lt) shape.xdim_lt
    (Nat.le_of_not_lt past)
  have stored := wrote _ last
  simp [mpiioWriteData, overflows] at stored

/-- The header counts the rows. -/
theorem MpiioWritten.row_eq {file : File} (fits : shape.Fits)
    (written : MpiioWritten int shape file) (header : Science) :
    (readScience int file 0 header).row.toInt = (shape.nprocs * shape.ydim : ℕ) := by
  have stored : Has file (0 + (0 * 4 : ℕ)) (int.encode (headerOf shape).row) :=
    has_element (written.has fits).1 rfl
  rw [Nat.zero_mul, Nat.cast_zero, Int.add_zero] at stored
  rw [readScience, readElement_of_has stored]
  exact toInt_ofNat fits.rows

/-- `array-mpiio-write-read` reads the middle column of as many rows as there are ranks. -/
theorem MpiioWritten.read_eq {file : File} (fits : shape.Fits)
    (written : MpiioWritten int shape file) {old : List Int32} (sized : old.length = shape.nprocs) :
    mpiioReadData int shape file old = shape.middleColumn.take shape.nprocs := by
  have rows : shape.nprocs ≤ shape.nprocs * shape.ydim :=
    Nat.le_mul_of_pos_right _ shape.ydim_pos
  rw [Shape.middleColumn, ← List.map_take, List.take_range, Nat.min_eq_left rows]
  refine readView_column (written.has fits).2 sized _ fun row inside => ?_
  exact Shape.getElem?_stacked (inside.trans_le rows) Shape.middle_lt

theorem mpiioReadsColumn_iff : MpiioReadsColumn int shape ↔
    shape.ydim = 1 ∧ (shape.nprocs - 1) * shape.xdim < 2 ^ 31 := by
  constructor
  · rintro ⟨⟨file, written⟩, reads⟩
    have column := (reads file written).2 (List.replicate shape.nprocs 0) List.length_replicate
    exact ⟨Shape.readsColumn_iff.mp (column.1 ▸ column), written.last_before⟩
  · rintro ⟨one, small⟩
    have fits := Shape.Fits.of_one one small
    refine ⟨exists_mpiioWritten fits, fun file written => ⟨written.row_eq fits, ?_⟩⟩
    intro old sized
    have whole : shape.middleColumn.length ≤ shape.nprocs := by
      rw [Shape.length_middleColumn, one, Nat.mul_one]
    rw [written.read_eq fits sized, List.take_of_length_le whole]
    exact Shape.readsColumn_iff.mpr one

end Mpiio

/-! ### `array-pnetcdf-write-read` -/

section Pnetcdf

variable {shape : Shape}

/-- No product of `array-pnetcdf-write-read` overflows. -/
structure Shape.FitsDims (shape : Shape) : Prop where
  size : shape.xdim * shape.ydim < 2 ^ 31
  rows : shape.ydim * shape.nprocs < 2 ^ 31

theorem Shape.FitsDims.of_one (one : shape.ydim = 1) : shape.FitsDims := by
  constructor
  · rw [one, Nat.mul_one]
    exact shape.xdim_lt
  · rw [one, Nat.one_mul]
    exact shape.nprocs_lt

theorem pnetcdfWriteData_eq (fits : shape.FitsDims) {rank : ℕ} (bounded : rank < shape.nprocs) :
    pnetcdfWriteData shape rank =
      some (putVara [rank * shape.ydim, 0] [shape.ydim, shape.xdim] (shape.values rank)) := by
  have start : rank * shape.ydim < 2 ^ 31 := by
    refine (Nat.mul_le_mul_right _ (Nat.le_of_lt bounded)).trans_lt ?_
    rw [Nat.mul_comm]
    exact fits.rows
  rw [pnetcdfWriteData, mul?_ofNat shape.xdim_lt shape.ydim_lt fits.size,
    mul?_ofNat (bounded.trans shape.nprocs_lt) shape.ydim_lt start]
  simp only [Option.bind_eq_bind, Option.bind_some, toInt_ofNat start, Int.toNat_natCast]
  rfl

/-- The element of the stacked array with some indices. -/
def Shape.elementAt (shape : Shape) (index : List ℕ) : Int32 :=
  shape.element (index.getD 0 0) (index.getD 1 0)

/-- A rank's box holds its rows of the stacked array. -/
theorem box_values {rank : ℕ} (bounded : rank < shape.nprocs) :
    (hyperslab [rank * shape.ydim, 0] [shape.ydim, shape.xdim]).map shape.elementAt =
      shape.values rank := by
  rw [hyperslab_pair, List.map_flatMap]
  have sized : ∀ row : ℕ, (((List.range' 0 shape.xdim).map fun col => [row, col]).map
      shape.elementAt).length = shape.xdim := fun row => by
    rw [List.length_map, List.length_map, List.length_range']
  have long : ((List.range' (rank * shape.ydim) shape.ydim).flatMap fun row =>
      ((List.range' 0 shape.xdim).map fun col => [row, col]).map shape.elementAt).length =
        (shape.values rank).length := by
    rw [List.length_flatMap, List.map_congr_left fun row _ => sized row, List.map_const',
      List.length_range', List.sum_replicate_nat, Shape.length_values, Nat.mul_comm]
  apply List.ext_getElem?
  intro entry
  rcases Nat.lt_or_ge entry (shape.xdim * shape.ydim) with inside | past
  · have row : entry / shape.xdim < shape.ydim := Nat.div_lt_of_lt_mul inside
    have col : entry % shape.xdim < shape.xdim := Nat.mod_lt _ shape.xdim_pos
    have listed : (List.range' (rank * shape.ydim) shape.ydim)[entry / shape.xdim]? =
        some (rank * shape.ydim + entry / shape.xdim) := by
      rw [List.getElem?_range' row, Nat.one_mul]
    rw [← Nat.div_add_mod' entry shape.xdim, flatMap_getElem? sized listed col,
      Shape.element_eq bounded row col, List.map_map, List.getElem?_map,
      List.getElem?_range' col, Option.map_some, Nat.zero_add, Nat.one_mul]
    rfl
  · rw [List.getElem?_eq_none (long.trans_le ?_), List.getElem?_eq_none] <;>
      rw [Shape.length_values] <;> exact past

/-- Every write of `array-pnetcdf-write-read` is of an element of the stacked array. -/
theorem pnetcdf_agrees {writes : ℕ → List (List ℕ × Int32)} (fits : shape.FitsDims)
    (wrote : ∀ rank < shape.nprocs, pnetcdfWriteData shape rank = some (writes rank)) :
    ∀ write ∈ collective shape.nprocs writes, shape.elementAt write.1 = write.2 := by
  intro write listed
  obtain ⟨rank, inRange, inside⟩ := List.mem_flatMap.mp listed
  have bounded := List.mem_range.mp inRange
  have same := Option.some.inj ((wrote rank bounded).symm.trans (pnetcdfWriteData_eq fits bounded))
  rw [same] at inside
  refine (zip_agrees ?_).mpr (box_values bounded) write inside
  rw [length_hyperslab_pair, Shape.length_values, Nat.mul_comm]

/-- Every element of a row is written. -/
theorem pnetcdf_written {writes : ℕ → List (List ℕ × Int32)} (fits : shape.FitsDims)
    (wrote : ∀ rank < shape.nprocs, pnetcdfWriteData shape rank = some (writes rank)) {row col : ℕ}
    (inRows : row < shape.nprocs * shape.ydim) (inCols : col < shape.xdim) :
    [row, col] ∈ (collective shape.nprocs writes).map Prod.fst := by
  have bounded : row / shape.ydim < shape.nprocs := Nat.div_lt_of_lt_mul (by rwa [Nat.mul_comm])
  rw [collective, List.map_flatMap]
  refine List.mem_flatMap.mpr ⟨row / shape.ydim, List.mem_range.mpr bounded, ?_⟩
  rw [Option.some.inj ((wrote _ bounded).symm.trans (pnetcdfWriteData_eq fits bounded)), putVara,
    List.map_fst_zip, mem_hyperslab_pair]
  · have split := Nat.div_add_mod' row shape.ydim
    have below := Nat.mod_lt row shape.ydim_pos
    omega
  · rw [length_hyperslab_pair, Shape.length_values, Nat.mul_comm]

theorem PnetcdfWritten.rows_eq {dataset : Dataset} (fits : shape.FitsDims)
    (written : PnetcdfWritten shape dataset) : dataset.rows = shape.nprocs * shape.ydim := by
  obtain ⟨rows, product, same⟩ := written.rows
  rw [mul?_ofNat shape.ydim_lt shape.nprocs_lt fits.rows] at product
  rw [same, ← Option.some.inj product, toInt_ofNat fits.rows, Int.toNat_natCast, Nat.mul_comm]

/-- `array-pnetcdf-write-read` reads the middle column of all rows. -/
theorem PnetcdfWritten.read_eq {dataset : Dataset} (fits : shape.FitsDims)
    (written : PnetcdfWritten shape dataset) :
    pnetcdfReadData shape dataset = shape.middleColumn := by
  obtain ⟨writes, wrote, holds⟩ := written.array
  rw [pnetcdfReadData, getVara, written.rows_eq fits, hyperslab_pair, List.map_flatMap,
    Shape.middleColumn, List.range_eq_range', ← List.flatMap_pure_eq_map]
  refine List.flatMap_congr fun row listed => ?_
  have inRows : row < shape.nprocs * shape.ydim := by simpa using listed
  have value := holds.eq_of_agrees (pnetcdf_agrees fits wrote)
    (pnetcdf_written fits wrote inRows Shape.middle_lt)
  rw [List.range'_one, List.map_singleton, List.map_singleton, value]
  rfl

theorem exists_pnetcdfWritten (fits : shape.FitsDims) :
    ∃ dataset, PnetcdfWritten shape dataset := by
  obtain ⟨array, holds⟩ := exists_holds (collective shape.nprocs fun rank =>
    (pnetcdfWriteData shape rank).getD [])
  refine ⟨⟨_, shape.xdim, array, 1⟩, ⟨_, mul?_ofNat shape.ydim_lt shape.nprocs_lt fits.rows, rfl⟩,
    rfl, rfl, fun rank => (pnetcdfWriteData shape rank).getD [], fun rank bounded => ?_, holds⟩
  simp only [pnetcdfWriteData_eq fits bounded, Option.getD_some]

theorem pnetcdfReadsColumn_iff : PnetcdfReadsColumn shape ↔ shape.ydim = 1 := by
  constructor
  · rintro ⟨⟨dataset, written⟩, reads⟩
    have column := (reads dataset written).2
    exact Shape.readsColumn_iff.mp (column.1 ▸ column)
  · intro one
    have fits := Shape.FitsDims.of_one one
    refine ⟨exists_pnetcdfWritten fits, fun dataset written => ⟨written.rows_eq fits, ?_⟩⟩
    rw [written.read_eq fits]
    exact Shape.readsColumn_iff.mpr one

end Pnetcdf

/-- Both programs read back the whole middle column exactly if every rank has one row, provided
that `rank*XDIM` does not overflow in `array-mpiio-write-read`. -/
theorem middle_column_iff (int : Native Int32 4) (shape : Shape) :
    (MpiioReadsColumn int shape ↔
      shape.ydim = 1 ∧ (shape.nprocs - 1) * shape.xdim < 2 ^ 31) ∧
    (PnetcdfReadsColumn shape ↔ shape.ydim = 1) :=
  ⟨mpiioReadsColumn_iff, pnetcdfReadsColumn_iff⟩

/-- Two ranks with two rows each, for four of which `read_buf` has no room. -/
theorem middle_column_cut :
    let shape : Shape :=
      ⟨2, 5, 2, by decide, by decide, by decide, by decide, by decide, by decide⟩
    ¬ MpiioReadsColumn littleEndianInt shape ∧ ¬ PnetcdfReadsColumn shape := by
  intro shape
  constructor
  · intro reads
    exact absurd (mpiioReadsColumn_iff.mp reads).1 (by decide)
  · intro reads
    exact absurd (pnetcdfReadsColumn_iff.mp reads) (by decide)

end HandsOn.Arrays
