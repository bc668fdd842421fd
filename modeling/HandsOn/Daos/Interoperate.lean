import HandsOn.Daos.Records
import HandsOn.Semantics.Loop

/-!
# The three readers

A reader visits the records of its rank as the writers do and compares the header of each
with `XDIM` and `YDIM`. All writers store `YDIM` in `row` and `XDIM` in `col`; all readers
expect `XDIM` in `row` and `YDIM` in `col`.
-/

namespace HandsOn.Daos

open Mpi Semantics

/-- What a reader prints when it rejects a header: the values after `read error:`. -/
structure ReadError where
  i : ℕ
  iter : Int32
  xdim : Int32
  row : Int32
  ydim : Int32
  col : Int32
deriving DecidableEq

/-- Where a reader is in the file, and its memory. -/
structure Cursor where
  position : Int
  data : Science
  array : List Int32

section Readers

variable (int : Native Int32 4) (header : ArrayHeader) (file : File)

/-- Read `sizeof(data)` bytes into `data`. -/
def readScience (position : Int) (data : Science) : Science :=
  { row := readElement int file position data.row
    col := readElement int file (position + 4) data.col
    iter := readElement int file (position + 8) data.iter }

/-- The comparison of a header that was read in iteration `i`. -/
def check (i : ℕ) (data : Science) : Except ReadError Unit :=
  if data.iter ≠ Int32.ofNat (i + 1) ∨ data.row ≠ Int32.ofNat header.xdim ∨
      data.col ≠ Int32.ofNat header.ydim then
    .error ⟨i, data.iter, Int32.ofNat header.xdim, data.row, Int32.ofNat header.ydim, data.col⟩
  else
    .ok ()

/-- `read_data` with a file pointer of its own. -/
def sequentialRead (initial : Int) (rank : ℕ) : Except ReadError Cursor :=
  let sought := if 0 < rank then header.off initial rank else 0
  let iteration := fun (cursor : Cursor) i => do
    let data := readScience int file cursor.position cursor.data
    check header i data
    return {
      position := cursor.position + 12 + (header.xdim * header.ydim * 4 : ℕ)
      data := data
      array := readElements int file (cursor.position + 12) cursor.array }
  (List.range header.iter).foldlM iteration ⟨sought, header.data, header.array⟩

/-- `read_data` of `posix-read.c`, where rank 0 finds `initial` in its `off`. -/
def posixRead (initial : Int) (rank : ℕ) : Except ReadError Cursor :=
  sequentialRead int header file initial rank

/-- `read_data` of `mpiio-read.c`, where rank 0 finds `initial` in its `off`. -/
def mpiioRead (initial : Int) (rank : ℕ) : Except ReadError Cursor :=
  sequentialRead int header file initial rank

/-- `read_data` of `dfs-read.c`, whose `dfs_read` fetches header and array from `off`. -/
def dfsRead (rank : ℕ) : Except ReadError Cursor :=
  let iteration := fun (cursor : Cursor) i => do
    let data := readScience int file cursor.position
      { cursor.data with iter := Int32.ofNat (i + 1) }
    let array := readElements int file (cursor.position + 12) cursor.array
    check header i data
    return {
      position := cursor.position + (12 + header.xdim * header.ydim * 4 : ℕ)
      data := data
      array := array }
  (List.range header.iter).foldlM iteration ⟨header.off 0 rank, header.data, header.array⟩

/-- The readers; the two that leave `off` of rank 0 undefined come with its value. -/
inductive Reader where
  | posix (initial : Int)
  | mpiio (initial : Int)
  | dfs

/-- What a rank of a reader does with a file. -/
def Reader.read : Reader → ℕ → Except ReadError Cursor
  | posix initial => posixRead int header file initial
  | mpiio initial => mpiioRead int header file initial
  | dfs => dfsRead int header file

end Readers

/-! ### Interoperation -/

section Interoperation

variable (int : Native Int32 4) (header : ArrayHeader) (nprocs : ℕ)

/-- What the README promises of a writer and a reader. -/
structure Interoperate (writer : Writer) (reader : Reader) : Prop where
  /-- The file is the records of all ranks, in rank order. -/
  ordered : ∀ file, Outcome (collective nprocs (writer.write int header)) file →
    ∀ position : ℕ, file position = (document int header nprocs)[position]?
  /-- Any other writer leaves the same file. -/
  same : ∀ (other : Writer) (file file' : File),
    Outcome (collective nprocs (writer.write int header)) file →
    Outcome (collective nprocs (other.write int header)) file' → file = file'
  /-- Every rank accepts every record. -/
  accepted : ∀ file, Outcome (collective nprocs (writer.write int header)) file →
    ∀ rank < nprocs, ∃ cursor, reader.read int header file rank = .ok cursor

theorem writer_ordered (writer : Writer) {file : File}
    (outcome : Outcome (collective nprocs (writer.write int header)) file) (position : ℕ) :
    file position = (document int header nprocs)[position]? :=
  outcome.eq_document (List.Perm.of_eq (collective_write int header writer nprocs)) position

theorem writer_same (writer other : Writer) {file file' : File}
    (outcome : Outcome (collective nprocs (writer.write int header)) file)
    (outcome' : Outcome (collective nprocs (other.write int header)) file') : file = file' := by
  rw [collective_write] at outcome outcome'
  exact outcome.unique (List.Perm.refl _) outcome'

variable {int header nprocs}

/-- Reading a header that the file holds gives it. -/
theorem readScience_of_has {file : File} {position : Int} {stored : Science}
    (holds : Has file position (int.encodeAll stored.fields)) (data : Science) :
    readScience int file position data = stored := by
  have parts : int.encodeAll stored.fields =
      int.encode stored.row ++ (int.encode stored.col ++ int.encode stored.iter) := by
    simp [Science.fields, Native.encodeAll]
  rw [parts, has_append, has_append, int.length_encode, int.length_encode, add_assoc] at holds
  obtain ⟨row, col, iter⟩ := holds
  have colRead : readElement int file (position + 4) data.col = stored.col :=
    readElement_of_has col data.col
  have iterRead : readElement int file (position + 8) data.iter = stored.iter :=
    readElement_of_has iter data.iter
  rw [readScience, readElement_of_has row, colRead, iterRead]

/-- The records of a rank are at its place in the file. -/
theorem has_record {file : File}
    (ordered : ∀ position : ℕ, file position = (document int header nprocs)[position]?)
    {rank i : ℕ} (bounded : rank < nprocs) (inside : i < header.iter) :
    Has file ((rank * header.totalsz : ℕ) +
      (i * (12 + header.xdim * header.ydim * 4) : ℕ)) (record int header i) := by
  have whole : Has file 0 (document int header nprocs) := fun index byte listed => by
    rw [Int.zero_add, ordered, listed]
  have own := has_flatMap (fun _ => length_records int header) whole bounded
  rw [Int.zero_add] at own
  exact has_flatMap (length_record int header) own inside

/-- A header that a writer stored passes the check exactly if the array is square. -/
theorem check_dataAt (header : ArrayHeader) (i : ℕ) :
    check header i (dataAt header i) = .ok () ↔ header.xdim = header.ydim := by
  have values : Int32.ofNat header.ydim = Int32.ofNat header.xdim ↔ header.xdim = header.ydim := by
    constructor
    · intro same
      have sizes := congrArg Int32.toInt same
      rw [Int32.toInt_ofNat_of_lt header.ydim_lt, Int32.toInt_ofNat_of_lt header.xdim_lt] at sizes
      omega
    · intro square
      rw [square]
  rw [check, ite_eq_right_iff]
  simp only [dataAt, ArrayHeader.data, ne_eq, not_true_eq_false, false_or]
  rw [values, @eq_comm _ (Int32.ofNat header.xdim), values]
  simp

/-- Where the records of a rank start. -/
def place (header : ArrayHeader) (rank i : ℕ) : Int :=
  (rank * header.totalsz : ℕ) + (i * (12 + header.xdim * header.ydim * 4) : ℕ)

theorem place_zero (rank : ℕ) : place header rank 0 = (rank * header.totalsz : ℕ) := by
  simp [place]

theorem place_succ (rank i : ℕ) :
    place header rank (i + 1) =
      place header rank i + (12 + header.xdim * header.ydim * 4 : ℕ) := by
  rw [place, place, Nat.succ_mul]
  push_cast
  ring

/-- Reading the header of a record gives what the writer stored. -/
theorem readScience_place {file : File}
    (ordered : ∀ position : ℕ, file position = (document int header nprocs)[position]?)
    {rank i : ℕ} (bounded : rank < nprocs) (inside : i < header.iter) (data : Science) :
    readScience int file (place header rank i) data = dataAt header i :=
  readScience_of_has (has_append.mp (has_record ordered bounded inside)).1 data

/-- `sought` is the place of the first record. -/
theorem sought_eq (header : ArrayHeader) (initial : Int) (rank : ℕ) :
    (if 0 < rank then header.off initial rank else 0) = place header rank 0 := by
  rw [place_zero]
  by_cases first : rank = 0
  · simp [first]
  · rw [if_pos (Nat.pos_of_ne_zero first), off_later header initial first]

/-- A reader that checks the records one after the other accepts them exactly if the array is
square. -/
theorem loop_ok_iff {step : Cursor → ℕ → Except ReadError Cursor} {rank : ℕ} {start : Cursor}
    (checks : ∀ cursor, ∀ i < header.iter, cursor.position = place header rank i →
      ∃ next, next.position = place header rank (i + 1) ∧
        step cursor i = (check header i (dataAt header i)).map fun _ => next)
    (first : start.position = place header rank 0) :
    (∃ cursor, (List.range header.iter).foldlM step start = .ok cursor) ↔
      header.xdim = header.ydim := by
  have accepted_iff : ∀ cursor, ∀ i < header.iter, cursor.position = place header rank i →
      ((∃ next, step cursor i = .ok next) ↔ header.xdim = header.ydim) := by
    intro cursor i inside here
    obtain ⟨next, _, result⟩ := checks cursor i inside here
    rw [← check_dataAt header i, result]
    cases check header i (dataAt header i) with
    | ok _ => exact iff_of_true ⟨next, rfl⟩ rfl
    | error error =>
        apply iff_of_false
        · rintro ⟨_, ⟨⟩⟩
        · rintro ⟨⟩
  have moves : ∀ i < header.iter, ∀ cursor next, cursor.position = place header rank i →
      step cursor i = .ok next → next.position = place header rank (i + 1) := by
    intro i inside cursor next here accepted
    obtain ⟨next', there, result⟩ := checks cursor i inside here
    rw [result] at accepted
    cases checked : check header i (dataAt header i) <;> rw [checked] at accepted <;> cases accepted
    exact there
  rw [foldlM_range_ok_iff (I := fun i (cursor : Cursor) => cursor.position = place header rank i)
    first (fun i inside cursor => accepted_iff cursor i inside) moves]
  exact ⟨fun all => all 0 header.iter_pos, fun square _ _ => square⟩

section Reading

variable {file : File}
  (ordered : ∀ position : ℕ, file position = (document int header nprocs)[position]?)
  {rank : ℕ} (bounded : rank < nprocs)
include ordered bounded

theorem sequentialRead_ok_iff (initial : Int) :
    (∃ cursor, sequentialRead int header file initial rank = .ok cursor) ↔
      header.xdim = header.ydim := by
  apply loop_ok_iff
  · intro cursor i inside here
    rw [here, readScience_place ordered bounded inside]
    have position : place header rank i + 12 + (header.xdim * header.ydim * 4 : ℕ) =
        place header rank (i + 1) := by
      rw [place_succ, Nat.cast_add, ← add_assoc]
      rfl
    refine ⟨⟨place header rank (i + 1), dataAt header i,
      readElements int file (place header rank i + 12) cursor.array⟩, rfl, ?_⟩
    rw [position]
    dsimp only
    cases check header i (dataAt header i) <;> rfl
  · exact sought_eq header initial rank

theorem dfsRead_ok_iff :
    (∃ cursor, dfsRead int header file rank = .ok cursor) ↔ header.xdim = header.ydim := by
  apply loop_ok_iff
  · intro cursor i inside here
    rw [here, readScience_place ordered bounded inside]
    refine ⟨⟨place header rank (i + 1), dataAt header i,
      readElements int file (place header rank i + 12) cursor.array⟩, rfl, ?_⟩
    rw [← place_succ]
    dsimp only
    cases check header i (dataAt header i) <;> rfl
  · exact (off_eq header rank).trans (place_zero rank).symm

/-- Every reader accepts the document exactly if the array is square. -/
theorem read_ok_iff (reader : Reader) :
    (∃ cursor, reader.read int header file rank = .ok cursor) ↔ header.xdim = header.ydim := by
  cases reader with
  | posix initial => exact sequentialRead_ok_iff ordered bounded initial
  | mpiio initial => exact sequentialRead_ok_iff ordered bounded initial
  | dfs => exact dfsRead_ok_iff ordered bounded

end Reading

end Interoperation

/-- The `array.h` of the repository. -/
def arrayHeader : ArrayHeader :=
  ⟨30, 30, 10, by decide, by decide, by decide, by decide, by decide, by decide⟩

/-- An `array.h` with one column and two rows. -/
def unevenHeader : ArrayHeader :=
  ⟨1, 2, 1, by decide, by decide, by decide, by decide, by decide, by decide⟩

end HandsOn.Daos
