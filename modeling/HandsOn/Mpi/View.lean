import HandsOn.Mpi.File

/-!
# Reading through a view of a subarray

A subarray datatype selects a box of a larger array whose elements follow each other row by row.
Reading through a view takes the elements that the datatype selects, in their order.
-/

namespace HandsOn.Mpi

universe u

namespace Datatype

/-- The places of the elements of a box in a larger array, in row-major order. -/
def boxPlaces : List ℕ → List ℕ → List ℕ → List ℕ
  | _ :: sizes, subsize :: subsizes, start :: starts =>
      (List.range' start subsize).flatMap fun index =>
        (boxPlaces sizes subsizes starts).map fun rest => index * sizes.prod + rest
  | _, _, _ => [0]

/-- `MPI_Type_create_subarray` with `MPI_ORDER_C` -/
def subarray (sizes subsizes starts : List ℕ) (old : Datatype) : Datatype :=
  concat ((boxPlaces sizes subsizes starts).map fun place =>
    old.shift ((place : ℕ) * old.extent))

/-- The elements of a subarray of a basic datatype. -/
theorem typemap_subarray_basic (sizes subsizes starts : List ℕ) (size : ℕ) :
    (subarray sizes subsizes starts (basic size)).typemap =
      (boxPlaces sizes subsizes starts).map fun place => (((place * size : ℕ) : Int), size) := by
  rw [subarray, typemap_concat, List.flatMap_map, extent_basic]
  simp only [shift, typemap_basic, List.map_cons, List.map_nil, add_zero, ← Nat.cast_mul]
  exact List.flatMap_pure_eq_map _ _

/-- A column of a matrix. -/
theorem boxPlaces_column (rows cols col : ℕ) :
    boxPlaces [rows, cols] [rows, 1] [0, col] =
      (List.range rows).map fun row => row * cols + col := by
  simp only [boxPlaces, List.range'_one, List.flatMap_singleton, List.map_cons, List.map_nil,
    List.prod_cons, List.prod_nil, Nat.mul_one, Nat.add_zero, ← List.range_eq_range']
  exact List.flatMap_pure_eq_map _ _

end Datatype

section Views

variable {Value : Type u} {size : ℕ} (layout : Native Value size)

/-- `MPI_File_read_all` at the beginning of a view with one instance of `filetype`, over the old
values of a buffer. -/
def readView (file : File) (disp : Int) (filetype : Datatype) (old : List Value) : List Value :=
  List.zipWith (fun element value => readElement layout file (disp + element.1) value)
    filetype.typemap old

/-- What may be in a file after the writes, whatever it held before. -/
def Written (writes : List (Int × UInt8)) (file : File) : Prop :=
  ∀ position, landed writes position = [] ∨
    ∃ byte ∈ landed writes position, file position = some byte

variable {layout} {file : File}

/-- Writes that together write a document once leave it in the file. -/
theorem Written.has_document {writes : List (Int × UInt8)} {document : List UInt8}
    (written : Written writes file) (once : writes.Perm (writeAt 0 document)) :
    Has file 0 document := by
  intro index byte listed
  have one := landed_perm once (0 + (index : Int))
  rw [landed_writeAt, listed] at one
  obtain nothing | ⟨stored, inside, holds⟩ := written (0 + (index : Int))
  · rw [nothing] at one
    exact absurd one.symm.eq_nil (List.cons_ne_nil _ _)
  · rw [List.perm_singleton.mp one] at inside
    rw [holds, List.mem_singleton.mp inside]

/-- A file that holds elements holds each of them. -/
theorem has_element {offset : Int} {values : List Value}
    (holds : Has file offset (layout.encodeAll values)) {place : ℕ} {value : Value}
    (listed : values[place]? = some value) :
    Has file (offset + (place * size : ℕ)) (layout.encode value) := by
  obtain ⟨inside, rfl⟩ := List.getElem?_eq_some_iff.mp listed
  have split : values = values.take place ++ (values[place] :: values.drop (place + 1)) := by
    rw [← List.drop_eq_getElem_cons inside, List.take_append_drop]
  rw [split, layout.encodeAll_append] at holds
  have later := (has_append.mp holds).2
  rw [layout.length_encodeAll, List.length_take, Nat.min_eq_left (Nat.le_of_lt inside)] at later
  exact (has_append.mp later).1

/-- Reading a column of a matrix that the file holds. -/
theorem readView_column {disp : Int} {values old : List Value} {rows cols col : ℕ}
    (holds : Has file disp (layout.encodeAll values)) (sized : old.length = rows)
    (column : ℕ → Value)
    (listed : ∀ row < rows, values[row * cols + col]? = some (column row)) :
    readView layout file disp
        (Datatype.subarray [rows, cols] [rows, 1] [0, col] (Datatype.basic size)) old =
      (List.range rows).map column := by
  rw [readView, Datatype.typemap_subarray_basic, Datatype.boxPlaces_column, List.map_map]
  apply List.ext_getElem
  · simp [sized]
  · intro row before after
    have inRows : row < rows := by simpa using after
    simp only [List.getElem_zipWith, List.getElem_map, List.getElem_range, Function.comp_apply]
    exact readElement_of_has (has_element holds (listed row inRows)) _

end Views

end HandsOn.Mpi
