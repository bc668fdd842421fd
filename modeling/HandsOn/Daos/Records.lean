import HandsOn.Mpi.File

/-!
# The validation files and their three writers

Each rank writes `ITER` records, one after the other; a record is a header and an array.
`posix-write` and `mpiio-write` seek once and then write sequentially, `dfs-write` keeps the
offset itself and writes a record in one call. Sizes are natural numbers.
-/

namespace HandsOn.Daos

open Mpi

/-- The constants of `array.h`. -/
structure ArrayHeader where
  xdim : ℕ
  ydim : ℕ
  iter : ℕ
  xdim_pos : 0 < xdim
  ydim_pos : 0 < ydim
  iter_pos : 0 < iter
  xdim_lt : xdim < 2 ^ 31
  ydim_lt : ydim < 2 ^ 31
  iter_lt : iter < 2 ^ 31

/-- `science` -/
structure Science where
  row : Int32
  col : Int32
  iter : Int32
deriving DecidableEq

/-- The memory of a `science`. -/
def Science.fields (data : Science) : List Int32 := [data.row, data.col, data.iter]

/-- `buffer_create` -/
def bufferCreate (seed x y : ℕ) : List Int32 :=
  (List.range (x * y)).map fun i => Int32.ofNat (seed * 10 + i)

namespace ArrayHeader

variable (header : ArrayHeader)

/-- `data` as all six programs initialise it. -/
def data : Science := ⟨Int32.ofNat header.ydim, Int32.ofNat header.xdim, 1⟩

/-- `array` -/
def array : List Int32 := bufferCreate 0 header.xdim header.ydim

/-- `(sizeof(data) + sizeof(int)*XDIM*YDIM) * iterations` -/
def totalsz : ℕ := (12 + 4 * header.xdim * header.ydim) * header.iter

/-- `off` after `MPI_Exscan`, which leaves it as it is on rank 0. -/
def off (initial : Int) (rank : ℕ) : Int :=
  if rank = 0 then initial
  else (((List.range rank).map fun _ => header.totalsz).sum : ℕ)

end ArrayHeader

/-! ### Writers -/

/-- An open file, and what has been written through it. -/
structure Handle where
  position : Int
  written : List (Int × UInt8)

namespace Handle

/-- A file that has just been opened. -/
def opened : Handle := ⟨0, []⟩

/-- `lseek` and `MPI_File_seek`, with `SEEK_SET`. -/
def seek (handle : Handle) (off : Int) : Handle := { handle with position := off }

/-- `write` and `MPI_File_write`, which move the file pointer past what they write. -/
def write (handle : Handle) (bytes : List UInt8) : Handle :=
  ⟨handle.position + bytes.length, handle.written ++ writeAt handle.position bytes⟩

end Handle

section Writers

variable (int : Native Int32 4) (header : ArrayHeader)

/-- `data` in an iteration. -/
def dataAt (i : ℕ) : Science := { header.data with iter := Int32.ofNat (i + 1) }

/-- `write_data` with a file pointer of its own. -/
def sequentialWrite (initial : Int) (rank : ℕ) : List (Int × UInt8) :=
  let sought :=
    if 0 < rank then Handle.opened.seek (header.off initial rank) else Handle.opened
  let iteration := fun (handle : Handle) i =>
    (handle.write (int.encodeAll (dataAt header i).fields)).write (int.encodeAll header.array)
  ((List.range header.iter).foldl iteration sought).written

/-- `write_data` of `posix-write.c`, where rank 0 finds `initial` in its `off`. -/
def posixWrite (initial : Int) (rank : ℕ) : List (Int × UInt8) :=
  sequentialWrite int header initial rank

/-- `write_data` of `mpiio-write.c`, where rank 0 finds `initial` in its `off`. -/
def mpiioWrite (initial : Int) (rank : ℕ) : List (Int × UInt8) :=
  sequentialWrite int header initial rank

/-- `write_data` of `dfs-write.c`, whose `dfs_write` stores header and array at `off`. -/
def dfsWrite (rank : ℕ) : List (Int × UInt8) :=
  let iteration := fun (handle : Handle) i =>
    { position := handle.position + (12 + header.xdim * header.ydim * 4 : ℕ)
      written := handle.written ++ writeAt handle.position
        (int.encodeAll (dataAt header i).fields ++ int.encodeAll header.array) }
  ((List.range header.iter).foldl iteration ⟨header.off 0 rank, []⟩).written

/-- The writers; the two that leave `off` of rank 0 undefined come with its value. -/
inductive Writer where
  | posix (initial : Int)
  | mpiio (initial : Int)
  | dfs

/-- What a rank of a writer writes. -/
def Writer.write : Writer → ℕ → List (Int × UInt8)
  | posix initial => posixWrite int header initial
  | mpiio initial => mpiioWrite int header initial
  | dfs => dfsWrite int header

/-! ### What the writers have in common -/

/-- A record. -/
def record (i : ℕ) : List UInt8 :=
  int.encodeAll (dataAt header i).fields ++ int.encodeAll header.array

/-- The records of a rank. -/
def records : List UInt8 := (List.range header.iter).flatMap (record int header)

/-- The records of all ranks, in rank order. -/
def document (nprocs : ℕ) : List UInt8 := (List.range nprocs).flatMap fun _ => records int header

theorem length_record (i : ℕ) :
    (record int header i).length = 12 + header.xdim * header.ydim * 4 := by
  simp [record, Science.fields, ArrayHeader.array, bufferCreate]

theorem length_records : (records int header).length = header.totalsz := by
  rw [records, List.length_flatMap, List.map_congr_left fun i _ => length_record int header i,
    List.map_const', List.length_range, List.sum_replicate_nat, ArrayHeader.totalsz]
  ring

/-- Every later rank starts after the records of the ranks before it. -/
theorem off_later (initial : Int) {rank : ℕ} (later : rank ≠ 0) :
    header.off initial rank = ((rank * header.totalsz : ℕ) : Int) := by
  rw [ArrayHeader.off, if_neg later, List.map_const', List.length_range, List.sum_replicate_nat]

theorem off_eq (rank : ℕ) : header.off 0 rank = ((rank * header.totalsz : ℕ) : Int) := by
  by_cases first : rank = 0
  · simp [ArrayHeader.off, first]
  · exact off_later header 0 first

/-- Two writes are one write of all bytes. -/
theorem Handle.write_write (handle : Handle) (before after : List UInt8) :
    (handle.write before).write after = handle.write (before ++ after) := by
  simp only [Handle.write, writeAt_append, List.append_assoc, List.length_append, Nat.cast_add,
    add_assoc]

/-- A loop that writes one block after the other writes all of them. -/
theorem foldl_write {step : Handle → ℕ → Handle} {block : ℕ → List UInt8}
    (one : ∀ handle i, step handle i = handle.write (block i)) (count : ℕ) (handle : Handle) :
    (List.range count).foldl step handle = handle.write ((List.range count).flatMap block) := by
  induction count with
  | zero => simp [Handle.write, writeAt]
  | succ count ih =>
      rw [List.range_succ, List.foldl_append, ih, List.flatMap_append, List.flatMap_singleton,
        List.foldl_cons, List.foldl_nil, one, Handle.write_write]

theorem sequentialWrite_eq (initial : Int) (rank : ℕ) :
    sequentialWrite int header initial rank =
      writeAt ((rank * header.totalsz : ℕ) : Int) (records int header) := by
  have step : ∀ (handle : Handle) (i : ℕ),
      (handle.write (int.encodeAll (dataAt header i).fields)).write (int.encodeAll header.array) =
        handle.write (record int header i) := fun handle i => handle.write_write _ _
  rw [sequentialWrite, foldl_write step]
  by_cases first : rank = 0
  · rw [if_neg (by omega), first, Nat.zero_mul]
    rfl
  · rw [if_pos (by omega), ← off_later header initial first]
    rfl

theorem dfsWrite_eq (rank : ℕ) :
    dfsWrite int header rank =
      writeAt ((rank * header.totalsz : ℕ) : Int) (records int header) := by
  have step : ∀ (handle : Handle) (i : ℕ),
      { position := handle.position + (12 + header.xdim * header.ydim * 4 : ℕ)
        written := handle.written ++ writeAt handle.position
          (int.encodeAll (dataAt header i).fields ++ int.encodeAll header.array) } =
        handle.write (record int header i) := fun handle i => by
    rw [Handle.write, length_record, record]
  rw [dfsWrite, foldl_write step, ← off_eq]
  rfl

/-- A rank writes its records at its place, whatever the writer. -/
theorem write_eq (writer : Writer) (rank : ℕ) :
    writer.write int header rank =
      writeAt ((rank * header.totalsz : ℕ) : Int) (records int header) := by
  cases writer with
  | posix initial => exact sequentialWrite_eq int header initial rank
  | mpiio initial => exact sequentialWrite_eq int header initial rank
  | dfs => exact dfsWrite_eq int header rank

/-- Together the ranks write the document. -/
theorem collective_write (writer : Writer) (nprocs : ℕ) :
    collective nprocs (writer.write int header) = writeAt 0 (document int header nprocs) := by
  rw [funext (write_eq int header writer)]
  refine (collective_writeAt nprocs _ _ fun rank => ?_).trans ?_
  · rw [length_records, Nat.succ_mul]
    push_cast
    rfl
  · rw [Nat.zero_mul]
    rfl

end Writers

end HandsOn.Daos
