import HandsOn.Mpi.File
import Mathlib.Data.List.Flatten

/-!
# Compressed sparse rows, and the file `CSRIO_Write` leaves

A matrix is the list of its rows, a row the list of its column indices and values. The
arrays `ia`, `ja` and `a` of the CSR format are computed from it; row starts are 0-based.
The writers hold consecutive parts of the rows in rank order.
-/

namespace HandsOn.Sparse

open HandsOn.Mpi

universe u

variable {Double : Type u}

/-- The column indices and values of a row. -/
abbrev Row (Double : Type u) := List (Int32 × Double)

/-- The number of nonzeros of rows. -/
def nnz (rows : List (Row Double)) : ℕ := rows.flatten.length

/-- `ia`: where each row starts. -/
def rowStarts (rows : List (Row Double)) : List Int32 :=
  (List.range rows.length).map fun i => Int32.ofNat (nnz (rows.take i))

/-- `ja` -/
def colIndices (rows : List (Row Double)) : List Int32 := rows.flatten.map Prod.fst

/-- `a` -/
def entries (rows : List (Row Double)) : List Double := rows.flatten.map Prod.snd

@[simp] theorem nnz_nil : nnz ([] : List (Row Double)) = 0 := rfl

@[simp] theorem nnz_append (before after : List (Row Double)) :
    nnz (before ++ after) = nnz before + nnz after := by
  simp [nnz]

@[simp] theorem length_rowStarts (rows : List (Row Double)) :
    (rowStarts rows).length = rows.length := by
  simp [rowStarts]

@[simp] theorem length_colIndices (rows : List (Row Double)) :
    (colIndices rows).length = nnz rows :=
  List.length_map _

@[simp] theorem length_entries (rows : List (Row Double)) : (entries rows).length = nnz rows :=
  List.length_map _

@[simp] theorem colIndices_append (before after : List (Row Double)) :
    colIndices (before ++ after) = colIndices before ++ colIndices after := by
  simp [colIndices]

@[simp] theorem entries_append (before after : List (Row Double)) :
    entries (before ++ after) = entries before ++ entries after := by
  simp [entries]

/-- The starts of later rows are their own starts after the nonzeros before them. -/
theorem rowStarts_append (before after : List (Row Double)) :
    rowStarts (before ++ after) =
      rowStarts before ++ (rowStarts after).map (· + Int32.ofNat (nnz before)) := by
  rw [rowStarts, List.length_append, List.range_add, List.map_append, List.map_map]
  refine congrArg₂ (· ++ ·) (List.map_congr_left fun i inside => ?_) ?_
  · rw [List.take_append_of_le_length (List.mem_range.mp inside).le]
  · rw [rowStarts, List.map_map]
    refine List.map_congr_left fun i _ => ?_
    simp only [Function.comp, List.take_length_add_append, nnz_append, Int32.ofNat_add]
    exact Int32.add_comm _ _

theorem rowStarts_cons (row : Row Double) (rest : List (Row Double)) :
    rowStarts (row :: rest) = 0 :: (rowStarts rest).map (· + Int32.ofNat row.length) := by
  have split := rowStarts_append [row] rest
  simpa [rowStarts, nnz] using split

/-! ### Writing -/

/-- The arguments of `CSRIO_Write` that a rank's rows determine. -/
structure WriteArguments (Double : Type u) where
  myNz : Int32
  rowStart : Int32
  rowEnd : Int32
  myIa : List Int32
  myJa : List Int32
  myA : List Double

/-- The rows of the parts before a rank. -/
def rowsBefore (parts : List (List (Row Double))) (rank : ℕ) : List (Row Double) :=
  (parts.take rank).flatten

/-- The arguments of a rank that holds the rows of its part. -/
def writerArguments (parts : List (List (Row Double))) (rank : ℕ) : WriteArguments Double :=
  let rows := parts.getD rank []
  let start := (rowsBefore parts rank).length
  { myNz := Int32.ofNat (nnz rows)
    rowStart := Int32.ofNat start
    rowEnd := Int32.ofNat (start + rows.length) - 1
    myIa := rowStarts rows
    myJa := colIndices rows
    myA := entries rows }

/-- `MPI_SUM` over the ranks below `rank`; `0` on rank 0. -/
def exscan (values : ℕ → Int32) (rank : ℕ) : Int32 := ((List.range rank).map values).sum

/-- `memset(titlebuf, 0, 80); strncpy(titlebuf, title, 79)` -/
def titlebuf (title : List UInt8) : List UInt8 :=
  let copied := (title.takeWhile (· ≠ 0)).take 79
  copied ++ List.replicate (80 - copied.length) 0

/-- What a rank writes in `CSRIO_Write`. -/
def csrioWrite (int : Native Int32 4) (double : Native Double 8) (title : List UInt8) (n : Int32)
    (nprocs : ℕ) (args : ℕ → WriteArguments Double) (rank : ℕ) : List (Int × UInt8) :=
  let ⟨myNz, rowStart, rowEnd, myIa, myJa, myA⟩ := args rank
  let prevNz := exscan (fun rank => (args rank).myNz) rank
  let totNz := exscan (fun rank => (args rank).myNz) nprocs
  let headerWrites :=
    if rank = 0 then writeAt 0 (titlebuf title) ++ writeAt 80 (int.encodeAll [n, totNz]) else []
  let tmpIa := myIa.map (· + prevNz)
  let blklens := [(rowEnd - rowStart + 1).toNatClampNeg, myNz.toNatClampNeg, myNz.toNatClampNeg]
  let myfilerowoffset := 80 + byteOffset (2 + rowStart) 4
  let myfilecoloffset := 80 + byteOffset (2 + n + prevNz) 4
  let myfiledataoffset := 80 + byteOffset (2 + n + totNz) 4 + byteOffset prevNz 8
  let filetype := Datatype.struct 3 blklens [myfilerowoffset, myfilecoloffset, myfiledataoffset]
    [Datatype.int, Datatype.int, Datatype.double]
  headerWrites ++ writeView filetype
    (int.encodeAll tmpIa ++ (int.encodeAll myJa ++ double.encodeAll myA))

/-- The header: title, number of rows, and number of nonzeros. -/
def header (int : Native Int32 4) (title : List UInt8) (rows : List (Row Double)) : List UInt8 :=
  titlebuf title ++ int.encodeAll [Int32.ofNat rows.length, Int32.ofNat (nnz rows)]

/-- The file that is written: without the `n+1`st row start of the format. -/
def document (int : Native Int32 4) (double : Native Double 8) (title : List UInt8)
    (rows : List (Row Double)) : List UInt8 :=
  header int title rows ++
    (int.encodeAll (rowStarts rows) ++
      (int.encodeAll (colIndices rows) ++ double.encodeAll (entries rows)))

/-! ### The ranks' writes make up the document -/

section Parts

variable (parts : List (List (Row Double)))

@[simp] theorem rowsBefore_zero : rowsBefore parts 0 = [] := rfl

@[simp] theorem rowsBefore_length : rowsBefore parts parts.length = parts.flatten := by
  rw [rowsBefore, List.take_length]

theorem rowsBefore_succ (rank : ℕ) :
    rowsBefore parts (rank + 1) = rowsBefore parts rank ++ parts.getD rank [] := by
  rw [rowsBefore, List.take_add_one, List.flatten_append, List.getD_eq_getElem?_getD]
  refine congrArg (rowsBefore parts rank ++ ·) ?_
  cases parts[rank]? <;> simp

/-- The rows before a rank are the first rows of the matrix. -/
theorem exists_rowsAfter (rank : ℕ) : ∃ after, parts.flatten = rowsBefore parts rank ++ after :=
  ⟨(parts.drop rank).flatten, by rw [rowsBefore, ← List.flatten_append, List.take_append_drop]⟩

/-- A part and the rows before it are within the matrix. -/
theorem rowsBefore_add_le (rank : ℕ) :
    (rowsBefore parts rank).length + (parts.getD rank []).length ≤ parts.flatten.length ∧
      nnz (rowsBefore parts rank) + nnz (parts.getD rank []) ≤ nnz parts.flatten := by
  obtain ⟨after, split⟩ := exists_rowsAfter parts (rank + 1)
  rw [split, rowsBefore_succ]
  simp only [List.length_append, nnz_append]
  omega

theorem exscan_writerArguments (rank : ℕ) :
    exscan (fun rank => (writerArguments parts rank).myNz) rank =
      Int32.ofNat (nnz (rowsBefore parts rank)) := by
  induction rank with
  | zero => rfl
  | succ rank ih =>
      rw [exscan, List.range_succ, List.map_append, List.sum_append, ← exscan, ih,
        rowsBefore_succ, nnz_append, Int32.ofNat_add]
      simp [writerArguments]

/-- An array of the file that grows by each rank's part is written by all of them. -/
theorem collective_array (base count : ℕ) (whole : List (Row Double) → List UInt8)
    (part : ℕ → List UInt8) (empty : whole [] = [])
    (grows : ∀ rank, whole (rowsBefore parts (rank + 1)) =
      whole (rowsBefore parts rank) ++ part rank) :
    collective count (fun rank =>
        writeAt ((base + (whole (rowsBefore parts rank)).length : ℕ) : Int) (part rank)) =
      writeAt base (whole (rowsBefore parts count)) := by
  have bytes : (List.range count).flatMap part = whole (rowsBefore parts count) := by
    induction count with
    | zero => exact empty.symm
    | succ count ih =>
        rw [List.range_succ, List.flatMap_append, ih, List.flatMap_singleton, grows]
  refine (collective_writeAt count _ part fun rank => ?_).trans ?_
  · rw [grows, List.length_append]
    push_cast
    exact (add_assoc _ _ _).symm
  · rw [bytes, rowsBefore_zero, empty]
    rfl

end Parts

theorem length_titlebuf (title : List UInt8) : (titlebuf title).length = 80 := by
  have short : ((title.takeWhile (· ≠ 0)).take 79).length ≤ 79 := List.length_take_le _ _
  rw [titlebuf, List.length_append, List.length_replicate]
  omega

theorem length_header (int : Native Int32 4) (title : List UInt8) (rows : List (Row Double)) :
    (header int title rows).length = 88 := by
  simp [header, length_titlebuf]

/-- An `int` offset of the file, where it does not overflow. -/
theorem byteOffset_ofNat {count size : ℕ} (fits : count < 2 ^ 31) (small : size < 2 ^ 32) :
    byteOffset (Int32.ofNat count) size = (count * size : ℕ) := by
  rw [byteOffset_eq _ small, Int32.toInt_ofNat_of_lt fits]
  push_cast
  rfl

theorem byteOffset_two_add {first second : ℕ} (fits : 2 + first + second < 2 ^ 31) :
    byteOffset (2 + Int32.ofNat first + Int32.ofNat second) 4 =
      ((2 + first + second) * 4 : ℕ) := by
  have sum : 2 + Int32.ofNat first + Int32.ofNat second = Int32.ofNat (2 + first + second) := by
    rw [Int32.ofNat_add, Int32.ofNat_add]
    rfl
  rw [sum, byteOffset_ofNat fits (by decide)]

/-- A view of three blocks is three writes. -/
theorem writeView_struct (lens : ℕ × ℕ × ℕ) (disps : Int × Int × Int)
    {first second third : List UInt8} (sizedFirst : first.length = lens.1 * 4)
    (sizedSecond : second.length = lens.2.1 * 4) (sizedThird : third.length = lens.2.2 * 8) :
    writeView (Datatype.struct 3 [lens.1, lens.2.1, lens.2.2] [disps.1, disps.2.1, disps.2.2]
        [Datatype.int, Datatype.int, Datatype.double]) (first ++ (second ++ third)) =
      writeAt disps.1 first ++ (writeAt disps.2.1 second ++ writeAt disps.2.2 third) := by
  have last := writeView_concat 8 lens.2.2 disps.2.2 [] [] sizedThird
  rw [List.append_nil] at last
  refine (writeView_concat 4 lens.1 disps.1 _ _ sizedFirst).trans
    (congrArg (writeAt disps.1 first ++ ·) ?_)
  refine (writeView_concat 4 lens.2.1 disps.2.1 _ _ sizedSecond).trans
    (congrArg (writeAt disps.2.1 second ++ ·) ?_)
  exact last.trans (List.append_nil _)

section Writing

variable (int : Native Int32 4) (double : Native Double 8) (title : List UInt8)
  (parts : List (List (Row Double)))

/-- The header is one write. -/
theorem writeAt_header (rows : List (Row Double)) :
    writeAt 0 (titlebuf title) ++
        writeAt 80 (int.encodeAll [Int32.ofNat rows.length, Int32.ofNat (nnz rows)]) =
      writeAt 0 (header int title rows) := by
  rw [header, writeAt_append, length_titlebuf]
  rfl

/-- `row_end - row_start + 1` -/
theorem rowCount_eq (rank : ℕ) :
    (writerArguments parts rank).rowEnd - (writerArguments parts rank).rowStart + 1 =
      Int32.ofNat (parts.getD rank []).length := by
  simp only [writerArguments, Int32.ofNat_add]
  grind

/-- The number of rows in a rank's first block. -/
theorem blklen_rows {rank : ℕ} (fits : (parts.getD rank []).length < 2 ^ 31) :
    ((writerArguments parts rank).rowEnd - (writerArguments parts rank).rowStart +
      1).toNatClampNeg = (parts.getD rank []).length := by
  rw [rowCount_eq, Int32.toNatClampNeg_ofNat_of_lt fits]

theorem myfilerowoffset_eq {start : ℕ} (fits : 2 + start < 2 ^ 31) :
    80 + byteOffset (2 + Int32.ofNat start) 4 = ((88 + start * 4 : ℕ) : Int) := by
  have sum : 2 + Int32.ofNat start = Int32.ofNat (2 + start) := (Int32.ofNat_add _ _).symm
  rw [sum, byteOffset_ofNat fits (by decide)]
  omega

theorem myfilecoloffset_eq {n before : ℕ} (fits : 2 + n + before < 2 ^ 31) :
    80 + byteOffset (2 + Int32.ofNat n + Int32.ofNat before) 4 =
      ((88 + n * 4 + before * 4 : ℕ) : Int) := by
  rw [byteOffset_two_add fits]
  omega

theorem myfiledataoffset_eq {n nz before : ℕ} (fits : 2 + n + nz < 2 ^ 31)
    (within : before ≤ nz) :
    80 + byteOffset (2 + Int32.ofNat n + Int32.ofNat nz) 4 + byteOffset (Int32.ofNat before) 8 =
      ((88 + n * 4 + nz * 4 + before * 8 : ℕ) : Int) := by
  rw [byteOffset_two_add fits, byteOffset_ofNat (by omega) (by decide)]
  omega

/-- A rank writes the header if it is rank 0, and its share of each array at offsets that are
added up as `int`. -/
theorem csrioWrite_int_offsets (rank : ℕ)
    (small : parts.flatten.length < 2 ^ 31 ∧ nnz parts.flatten < 2 ^ 31) :
    let rows := parts.flatten
    let part := parts.getD rank []
    let before := rowsBefore parts rank
    csrioWrite int double title (Int32.ofNat rows.length) parts.length (writerArguments parts)
        rank =
      (if rank = 0 then writeAt 0 (header int title rows) else []) ++
        (writeAt (80 + byteOffset (2 + Int32.ofNat before.length) 4)
            (int.encodeAll ((rowStarts part).map (· + Int32.ofNat (nnz before)))) ++
          (writeAt (80 + byteOffset (2 + Int32.ofNat rows.length + Int32.ofNat (nnz before)) 4)
              (int.encodeAll (colIndices part)) ++
            writeAt (80 + byteOffset (2 + Int32.ofNat rows.length + Int32.ofNat (nnz rows)) 4 +
                byteOffset (Int32.ofNat (nnz before)) 8)
              (double.encodeAll (entries part)))) := by
  intro rows part before
  obtain ⟨inRows, inNz⟩ : before.length + part.length ≤ rows.length ∧
      nnz before + nnz part ≤ nnz rows := rowsBefore_add_le parts rank
  change rows.length < 2 ^ 31 ∧ nnz rows < 2 ^ 31 at small
  have blklenNz : (writerArguments parts rank).myNz.toNatClampNeg = nnz part :=
    Int32.toNatClampNeg_ofNat_of_lt (show nnz part < 2 ^ 31 by omega)
  simp only [csrioWrite, exscan_writerArguments, rowsBefore_length]
  rw [blklen_rows parts (show part.length < 2 ^ 31 by omega), blklenNz,
    writeAt_header int title rows]
  refine congrArg (_ ++ ·) (writeView_struct (part.length, nnz part, nnz part) (_, _, _) ?_ ?_ ?_)
  · simp [writerArguments, part]
  · simp [writerArguments, part]
  · simp [writerArguments, part]

/-- The `int` sums in the offsets do not overflow where something is written. -/
def Addressed (parts : List (List (Row Double))) : Prop :=
  2 + parts.flatten.length + nnz parts.flatten < 2 ^ 31 ∨
    nnz parts.flatten = 0 ∧ ∀ rank, parts.getD rank [] ≠ [] →
      2 + (rowsBefore parts rank).length < 2 ^ 31

/-- A rank writes its share of each array at its place in the document. -/
theorem csrioWrite_of_addressed (rank : ℕ)
    (small : parts.flatten.length < 2 ^ 31 ∧ nnz parts.flatten < 2 ^ 31)
    (addressed : Addressed parts) :
    let rows := parts.flatten
    let part := parts.getD rank []
    let before := rowsBefore parts rank
    csrioWrite int double title (Int32.ofNat rows.length) parts.length (writerArguments parts)
        rank =
      (if rank = 0 then writeAt 0 (header int title rows) else []) ++
        (writeAt ((88 + before.length * 4 : ℕ) : Int)
            (int.encodeAll ((rowStarts part).map (· + Int32.ofNat (nnz before)))) ++
          (writeAt ((88 + rows.length * 4 + nnz before * 4 : ℕ) : Int)
              (int.encodeAll (colIndices part)) ++
            writeAt ((88 + rows.length * 4 + nnz rows * 4 + nnz before * 8 : ℕ) : Int)
              (double.encodeAll (entries part)))) := by
  intro rows part before
  obtain ⟨inRows, inNz⟩ : before.length + part.length ≤ rows.length ∧
      nnz before + nnz part ≤ nnz rows := rowsBefore_add_le parts rank
  rw [csrioWrite_int_offsets int double title parts rank small]
  change _ ++ (writeAt _ (int.encodeAll ((rowStarts part).map _)) ++
    (writeAt _ (int.encodeAll (colIndices part)) ++
      writeAt _ (double.encodeAll (entries part)))) = _
  rcases addressed with fits | ⟨nothing, starts⟩
  · change 2 + rows.length + nnz rows < 2 ^ 31 at fits
    rw [myfilerowoffset_eq (show 2 + before.length < 2 ^ 31 by omega),
      myfilecoloffset_eq (show 2 + rows.length + nnz before < 2 ^ 31 by omega),
      myfiledataoffset_eq fits (show nnz before ≤ nnz rows by omega)]
  · change nnz rows = 0 at nothing
    have none : nnz part = 0 := by omega
    have cols : colIndices part = [] :=
      List.eq_nil_of_length_eq_zero ((length_colIndices part).trans none)
    have values : entries part = [] :=
      List.eq_nil_of_length_eq_zero ((length_entries part).trans none)
    rw [cols, values]
    by_cases empty : part = []
    · rw [empty]
      rfl
    · rw [myfilerowoffset_eq (starts rank empty)]
      rfl

/-- A rank writes the header if it is rank 0, and its share of each array. -/
theorem csrioWrite_eq (rank : ℕ)
    (fits : 2 + parts.flatten.length + nnz parts.flatten < 2 ^ 31) :
    let rows := parts.flatten
    let part := parts.getD rank []
    let before := rowsBefore parts rank
    csrioWrite int double title (Int32.ofNat rows.length) parts.length (writerArguments parts)
        rank =
      (if rank = 0 then writeAt 0 (header int title rows) else []) ++
        (writeAt ((88 + before.length * 4 : ℕ) : Int)
            (int.encodeAll ((rowStarts part).map (· + Int32.ofNat (nnz before)))) ++
          (writeAt ((88 + rows.length * 4 + nnz before * 4 : ℕ) : Int)
              (int.encodeAll (colIndices part)) ++
            writeAt ((88 + rows.length * 4 + nnz rows * 4 + nnz before * 8 : ℕ) : Int)
              (double.encodeAll (entries part)))) :=
  csrioWrite_of_addressed int double title parts rank (by omega) (Or.inl fits)

/-- The document is the header and the three arrays, one after the other. -/
theorem writeAt_document (rows : List (Row Double)) :
    writeAt 0 (document int double title rows) =
      writeAt 0 (header int title rows) ++
        (writeAt ((88 : ℕ) : Int) (int.encodeAll (rowStarts rows)) ++
          (writeAt ((88 + rows.length * 4 : ℕ) : Int) (int.encodeAll (colIndices rows)) ++
            writeAt ((88 + rows.length * 4 + nnz rows * 4 : ℕ) : Int)
              (double.encodeAll (entries rows)))) := by
  rw [document, writeAt_append, writeAt_append, writeAt_append, length_header,
    Native.length_encodeAll, Native.length_encodeAll, length_rowStarts, length_colIndices]
  push_cast
  rfl

/-- What only rank 0 writes is written once. -/
theorem collective_first {count : ℕ} (positive : 0 < count) (bytes : List (Int × UInt8)) :
    collective count (fun rank : ℕ => if rank = 0 then bytes else []) = bytes :=
  flatMap_range_first positive bytes

/-- Together the ranks write each byte of the document once, if the offsets do not overflow. -/
theorem csrioWrite_perm_of_addressed (nonempty : parts ≠ [])
    (small : parts.flatten.length < 2 ^ 31 ∧ nnz parts.flatten < 2 ^ 31)
    (addressed : Addressed parts) :
    (collective parts.length (csrioWrite int double title (Int32.ofNat parts.flatten.length)
      parts.length (writerArguments parts))).Perm
        (writeAt 0 (document int double title parts.flatten)) := by
  have headers := collective_first (List.length_pos_iff.mpr nonempty)
    (writeAt 0 (header int title parts.flatten))
  have starts := collective_array parts 88 parts.length
    (fun rows => int.encodeAll (rowStarts rows))
    (fun rank => int.encodeAll ((rowStarts (parts.getD rank [])).map
      (· + Int32.ofNat (nnz (rowsBefore parts rank))))) rfl fun rank => by
        rw [rowsBefore_succ, rowStarts_append, Native.encodeAll_append]
  have cols := collective_array parts (88 + parts.flatten.length * 4) parts.length
    (fun rows => int.encodeAll (colIndices rows))
    (fun rank => int.encodeAll (colIndices (parts.getD rank []))) rfl fun rank => by
        rw [rowsBefore_succ, colIndices_append, Native.encodeAll_append]
  have values := collective_array parts
    (88 + parts.flatten.length * 4 + nnz parts.flatten * 4) parts.length
    (fun rows => double.encodeAll (entries rows))
    (fun rank => double.encodeAll (entries (parts.getD rank []))) rfl fun rank => by
        rw [rowsBefore_succ, entries_append, Native.encodeAll_append]
  simp only [Native.length_encodeAll, length_rowStarts, length_colIndices, length_entries,
    rowsBefore_length] at starts cols values
  rw [writeAt_document, ← headers, ← starts, ← cols, ← values,
    funext fun rank => csrioWrite_of_addressed int double title parts rank small addressed]
  refine (collective_append_perm _ _ _).trans (List.Perm.append_left _ ?_)
  refine (collective_append_perm _ _ _).trans (List.Perm.append_left _ ?_)
  exact collective_append_perm _ _ _

/-- Together the ranks write each byte of the document once. -/
theorem csrioWrite_perm (nonempty : parts ≠ [])
    (fits : 2 + parts.flatten.length + nnz parts.flatten < 2 ^ 31) :
    (collective parts.length (csrioWrite int double title (Int32.ofNat parts.flatten.length)
      parts.length (writerArguments parts))).Perm
        (writeAt 0 (document int double title parts.flatten)) :=
  csrioWrite_perm_of_addressed int double title parts nonempty (by omega) (Or.inl fits)

end Writing

end HandsOn.Sparse
