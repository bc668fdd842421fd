import HandsOn.Sparse.Csr

/-!
# Reading rows back

`CSRIO_Read_rows` of `csrio-mpiio.c`, on the file that `CSRIO_Write` leaves. A reader takes
the number of its nonzeros from the row start after its last row. The last row has
none in the file: there the reader finds the first column index, or the end of the file.
-/

namespace HandsOn.Sparse

open HandsOn.Mpi

universe u

variable {Double : Type u}

/-- What a rank asks for, and what its variables hold before they are read into. -/
structure Reader (Double : Type u) where
  rowStart : ℕ
  rowEnd : ℕ
  myNz : Int32
  nextRowIa : Int32
  myIa : ℕ → Int32
  myJa : ℕ → Int32
  myA : ℕ → Double

/-- What a successful call leaves with the caller. -/
structure LocalRows (Double : Type u) where
  myNz : Int32
  myIa : List Int32
  myJa : List Int32
  myA : List Double

inductive ErrorCode where
  | errIo
  | errCount

namespace Reader

variable (int : Native Int32 4) (double : Native Double 8) (file : File) (reader : Reader Double)

/-- `row_end - row_start + 1` -/
def len : ℕ := reader.rowEnd - reader.rowStart + 1

def myIaOff : Int := 80 + byteOffset (2 + Int32.ofNat reader.rowStart) 4

/-- `my_ia` after the first read. -/
def readIa : List Int32 :=
  readElements int file reader.myIaOff ((List.range reader.len).map reader.myIa)

/-- `next_row_ia`, the last element of the first read. -/
def readNext : Int32 :=
  readElement int file (reader.myIaOff + ((reader.len * 4 : ℕ) : Int)) reader.nextRowIa

/-- `next_row_ia - my_ia[0]` -/
def count : Int32 := reader.readNext int file - (reader.readIa int file).headD 0

/-- `my_mem_ok`, where every allocation succeeds. -/
def myMemOk : Bool := reader.myNz = 0 ∨ reader.myNz ≥ reader.count int file

/-- Convert `ia` values to local references. -/
def localStarts : List Int32 → List Int32
  | [] => []
  | first :: rest => 0 :: rest.map (· - first)

end Reader

/-- `CSRIO_Read_rows` on a rank of `nprocs` readers. -/
def csrioReadRows (int : Native Int32 4) (double : Native Double 8) (n nz : Int32) (file : File)
    (nprocs : ℕ) (readers : ℕ → Reader Double) (rank : ℕ) : Except ErrorCode (LocalRows Double) :=
  let reader := readers rank
  let myIa := reader.readIa int file
  let count := reader.count int file
  let allMemOk := (List.range nprocs).all fun rank => (readers rank).myMemOk int file
  if !allMemOk then .error .errIo
  else if count < 0 then .error .errCount
  else
    let myJaOff := 80 + byteOffset (2 + n + myIa.headD 0) 4
    let myAOff := 80 + byteOffset (2 + n + nz) 4 + byteOffset (myIa.headD 0) 8
    .ok
      { myNz := count
        myIa := Reader.localStarts myIa
        myJa := readElements int file myJaOff ((List.range count.toNatClampNeg).map reader.myJa)
        myA := readElements double file myAOff ((List.range count.toNatClampNeg).map reader.myA) }

/-- The rows a reader asks for. -/
def Reader.rowsOf (reader : Reader Double) (rows : List (Row Double)) : List (Row Double) :=
  (rows.drop reader.rowStart).take reader.len

/-- What a reader of some rows is to get. -/
def LocalRows.of (rows : List (Row Double)) : LocalRows Double where
  myNz := Int32.ofNat (nnz rows)
  myIa := rowStarts rows
  myJa := colIndices rows
  myA := entries rows

/-- A reader asks for rows of the matrix, and for at least one; a bound on the number of
nonzeros, if it gives one, is large enough. -/
structure Reader.Valid (reader : Reader Double) (rows : List (Row Double)) : Prop where
  ordered : reader.rowStart ≤ reader.rowEnd
  inside : reader.rowEnd < rows.length
  room : reader.myNz = 0 ∨ (nnz (reader.rowsOf rows) : Int) ≤ reader.myNz.toInt

/-- Every reader gets its rows from every file the writers may leave. -/
def ReadsBack (int : Native Int32 4) (double : Native Double 8) (title : List UInt8)
    (parts : List (List (Row Double))) (nprocs : ℕ) (readers : ℕ → Reader Double) : Prop :=
  let rows := parts.flatten
  let n := Int32.ofNat rows.length
  let nz := Int32.ofNat (nnz rows)
  ∀ file, Outcome (collective parts.length
      (csrioWrite int double title n parts.length (writerArguments parts))) file →
    ∀ rank < nprocs, csrioReadRows int double n nz file nprocs readers rank =
      .ok (LocalRows.of ((readers rank).rowsOf rows))

/-! ### What a reader finds -/

section Finding

variable {int : Native Int32 4} {double : Native Double 8} {title : List UInt8} {file : File}
  {rows before asked after : List (Row Double)} {reader : Reader Double}

/-- A written file holds the document. -/
theorem has_document (written : ∀ position : ℕ,
    file position = (document int double title rows)[position]?) :
    Has file 0 (document int double title rows) := by
  intro index byte listed
  rw [zero_add, written, listed]

/-- The arrays of a written file are where the format has them. -/
theorem has_sections (written : ∀ position : ℕ,
    file position = (document int double title rows)[position]?) :
    Has file 88 (int.encodeAll (rowStarts rows)) ∧
      Has file ((88 + rows.length * 4 : ℕ) : Int) (int.encodeAll (colIndices rows)) ∧
      Has file ((88 + rows.length * 4 + nnz rows * 4 : ℕ) : Int)
        (double.encodeAll (entries rows)) := by
  have whole := has_document written
  rw [document, has_append, has_append, has_append, length_header, Native.length_encodeAll,
    Native.length_encodeAll, length_rowStarts, length_colIndices] at whole
  obtain ⟨_, starts, cols, values⟩ := whole
  push_cast
  rw [zero_add] at starts cols values
  exact ⟨starts, cols, values⟩

/-- The counts of a written file follow its title. -/
theorem has_counts (written : ∀ position : ℕ,
    file position = (document int double title rows)[position]?) :
    Has file 80 (int.encodeAll [Int32.ofNat rows.length, Int32.ofNat (nnz rows)]) := by
  have whole := has_document written
  rw [document, has_append, header, has_append, length_titlebuf, zero_add] at whole
  exact whole.1.2

theorem myIaOff_eq (fits : 2 + reader.rowStart < 2 ^ 31) :
    reader.myIaOff = ((88 + reader.rowStart * 4 : ℕ) : Int) := by
  have sum : 2 + Int32.ofNat reader.rowStart = Int32.ofNat (2 + reader.rowStart) :=
    (Int32.ofNat_add _ _).symm
  rw [Reader.myIaOff, sum, byteOffset_ofNat fits (by decide)]
  omega

/-- How the rows a reader asks for lie in the matrix. -/
structure Asks (reader : Reader Double) (rows before asked after : List (Row Double)) : Prop where
  split : rows = before ++ (asked ++ after)
  start : before.length = reader.rowStart
  len : asked.length = reader.len

theorem Reader.Valid.asks (valid : reader.Valid rows) :
    Asks reader rows (rows.take reader.rowStart) (reader.rowsOf rows)
      ((rows.drop reader.rowStart).drop reader.len) where
  split := by rw [Reader.rowsOf, List.take_append_drop, List.take_append_drop]
  start := by
    have := valid.ordered
    have := valid.inside
    rw [List.length_take]
    omega
  len := by
    have := valid.ordered
    have := valid.inside
    rw [Reader.rowsOf, List.length_take, List.length_drop, Reader.len]
    omega

namespace Asks

/-- The rows from those asked for on have their starts where the reader reads. -/
theorem has_starts (asks : Asks reader rows before asked after)
    (fits : 2 + rows.length < 2 ^ 31) (starts : Has file 88 (int.encodeAll (rowStarts rows))) :
    Has file reader.myIaOff
        (int.encodeAll ((rowStarts asked).map (· + Int32.ofNat (nnz before)))) ∧
      Has file (reader.myIaOff + ((reader.len * 4 : ℕ) : Int))
        (int.encodeAll ((rowStarts after).map (· + Int32.ofNat (nnz before + nnz asked)))) := by
  have small : 2 + reader.rowStart < 2 ^ 31 := by
    rw [asks.split, List.length_append, asks.start] at fits
    omega
  have shifted : (rowStarts (asked ++ after)).map (· + Int32.ofNat (nnz before)) =
      (rowStarts asked).map (· + Int32.ofNat (nnz before)) ++
        (rowStarts after).map (· + Int32.ofNat (nnz before + nnz asked)) := by
    rw [rowStarts_append, List.map_append, List.map_map]
    refine congrArg₂ (· ++ ·) rfl (List.map_congr_left fun start _ => ?_)
    rw [Function.comp, Int32.ofNat_add]
    grind
  rw [asks.split, rowStarts_append, shifted, Native.encodeAll_append, has_append,
    Native.encodeAll_append, has_append] at starts
  simp only [Native.length_encodeAll, length_rowStarts, List.length_map, asks.start,
    asks.len] at starts
  rw [myIaOff_eq small]
  push_cast at starts ⊢
  exact starts.2

theorem readIa_eq (asks : Asks reader rows before asked after)
    (fits : 2 + rows.length < 2 ^ 31) (starts : Has file 88 (int.encodeAll (rowStarts rows))) :
    reader.readIa int file = (rowStarts asked).map (· + Int32.ofNat (nnz before)) :=
  readElements_of_has (asks.has_starts fits starts).1 (by simp [asks.len])

/-- Before the last row the reader finds the next row start. -/
theorem readNext_inner {next : Row Double} {rest : List (Row Double)}
    (asks : Asks reader rows before asked (next :: rest)) (fits : 2 + rows.length < 2 ^ 31)
    (starts : Has file 88 (int.encodeAll (rowStarts rows))) :
    reader.readNext int file = Int32.ofNat (nnz before + nnz asked) := by
  have following := (asks.has_starts fits starts).2
  rw [rowStarts_cons, List.map_cons, Native.encodeAll, List.flatMap_cons, has_append] at following
  refine (readElement_of_has following.1 _).trans ?_
  grind

/-- After the last row the reader finds the first column index, or nothing. -/
theorem readNext_last (asks : Asks reader rows before asked [])
    (fits : 2 + rows.length < 2 ^ 31) (written : ∀ position : ℕ,
      file position = (document int double title rows)[position]?) :
    reader.readNext int file = (colIndices rows).headD reader.nextRowIa := by
  obtain ⟨_, cols, _⟩ := has_sections written
  have size : reader.rowStart + reader.len = rows.length := by
    rw [asks.split, List.length_append, asks.start, List.append_nil, asks.len]
  have here : reader.myIaOff + ((reader.len * 4 : ℕ) : Int) =
      ((88 + rows.length * 4 : ℕ) : Int) := by
    rw [myIaOff_eq (by omega), ← size]
    omega
  rw [Reader.readNext, here]
  cases indices : colIndices rows with
  | nil =>
      have empty : nnz rows = 0 := by rw [← length_colIndices, indices, List.length_nil]
      refine readElement_of_none (fun byte _ => ?_) _
      rw [← Nat.cast_add, written, List.getElem?_eq_none]
      simp [document, length_header, empty]
  | cons first rest =>
      rw [indices, Native.encodeAll, List.flatMap_cons, has_append] at cols
      exact readElement_of_has cols.1 _

theorem headD_readIa (asks : Asks reader rows before asked after)
    (fits : 2 + rows.length < 2 ^ 31) (starts : Has file 88 (int.encodeAll (rowStarts rows))) :
    (reader.readIa int file).headD 0 = Int32.ofNat (nnz before) := by
  have some : 0 < asked.length := asks.len ▸ Nat.succ_pos _
  obtain ⟨first, rest, rfl⟩ := List.exists_cons_of_length_pos some
  rw [asks.readIa_eq fits starts, rowStarts_cons, List.map_cons, List.headD_cons]
  exact Int32.zero_add _

/-- The reader counts its nonzeros right exactly if it finds where its rows end. -/
theorem count_eq_iff (asks : Asks reader rows before asked after)
    (fits : 2 + rows.length < 2 ^ 31) (starts : Has file 88 (int.encodeAll (rowStarts rows))) :
    reader.count int file = Int32.ofNat (nnz asked) ↔
      reader.readNext int file = Int32.ofNat (nnz before + nnz asked) := by
  rw [Reader.count, asks.headD_readIa fits starts, Int32.ofNat_add]
  grind

/-- It does so before the last row, and after it only by coincidence. -/
theorem readNext_eq_iff (asks : Asks reader rows before asked after)
    (fits : 2 + rows.length < 2 ^ 31) (written : ∀ position : ℕ,
      file position = (document int double title rows)[position]?)
    (ordered : reader.rowStart ≤ reader.rowEnd) :
    reader.readNext int file = Int32.ofNat (nnz before + nnz asked) ↔
      reader.rowEnd + 1 < rows.length ∨
        (colIndices rows).headD reader.nextRowIa = Int32.ofNat (nnz rows) := by
  have size : reader.rowEnd + 1 + after.length = rows.length := by
    rw [asks.split, List.length_append, List.length_append, asks.start, asks.len, Reader.len]
    omega
  cases after with
  | nil =>
      have all : nnz before + nnz asked = nnz rows := by
        rw [asks.split, nnz_append, List.append_nil]
      rw [asks.readNext_last fits written, all]
      rw [List.length_nil] at size
      exact ⟨.inr, fun found => found.resolve_left (by omega)⟩
  | cons next rest =>
      rw [List.length_cons] at size
      exact iff_of_true (asks.readNext_inner fits (has_sections written).1) (.inl (by omega))

theorem localStarts_readIa (asks : Asks reader rows before asked after)
    (fits : 2 + rows.length < 2 ^ 31) (starts : Has file 88 (int.encodeAll (rowStarts rows))) :
    Reader.localStarts (reader.readIa int file) = rowStarts asked := by
  rw [asks.readIa_eq fits starts]
  cases asked with
  | nil => rfl
  | cons first rest =>
      rw [rowStarts_cons, List.map_cons, Reader.localStarts, List.map_map, List.map_map]
      refine congrArg _ (List.map_congr_left fun start _ => ?_)
      simp only [Function.comp]
      grind

/-- With the right count the reader gets the columns and values of its rows. -/
theorem readRows (asks : Asks reader rows before asked after)
    (fits : 2 + rows.length + nnz rows < 2 ^ 31) (written : ∀ position : ℕ,
      file position = (document int double title rows)[position]?) (oldJa : List Int32)
    (oldA : List Double) (sizedJa : oldJa.length = nnz asked) (sizedA : oldA.length = nnz asked) :
    readElements int file
        (80 + byteOffset (2 + Int32.ofNat rows.length + Int32.ofNat (nnz before)) 4) oldJa =
      colIndices asked ∧
    readElements double file
        (80 + byteOffset (2 + Int32.ofNat rows.length + Int32.ofNat (nnz rows)) 4 +
          byteOffset (Int32.ofNat (nnz before)) 8) oldA = entries asked := by
  obtain ⟨_, cols, values⟩ := has_sections written
  have small : nnz before ≤ nnz rows := by
    rw [asks.split, nnz_append]
    exact Nat.le_add_right _ _
  rw [asks.split, colIndices_append, colIndices_append, Native.encodeAll_append, has_append,
    Native.encodeAll_append, has_append, ← asks.split, Native.length_encodeAll,
    length_colIndices] at cols
  rw [asks.split, entries_append, entries_append, Native.encodeAll_append, has_append,
    Native.encodeAll_append, has_append, ← asks.split, Native.length_encodeAll,
    length_entries] at values
  have colsAt : 80 + byteOffset (2 + Int32.ofNat rows.length + Int32.ofNat (nnz before)) 4 =
      ((88 + rows.length * 4 : ℕ) : Int) + ((nnz before * 4 : ℕ) : Int) := by
    rw [byteOffset_two_add (by omega)]
    omega
  have valuesAt : 80 + byteOffset (2 + Int32.ofNat rows.length + Int32.ofNat (nnz rows)) 4 +
      byteOffset (Int32.ofNat (nnz before)) 8 =
        ((88 + rows.length * 4 + nnz rows * 4 : ℕ) : Int) + ((nnz before * 8 : ℕ) : Int) := by
    rw [byteOffset_two_add (by omega), byteOffset_ofNat (by omega) (by decide)]
    omega
  rw [colsAt, valuesAt]
  exact ⟨readElements_of_has cols.2.1 (by rw [sizedJa, length_colIndices]),
    readElements_of_has values.2.1 (by rw [sizedA, length_entries])⟩

end Asks

end Finding

section RoundTrip

variable {int : Native Int32 4} {double : Native Double 8} {title : List UInt8} {file : File}
  {rows : List (Row Double)} {nprocs : ℕ} {readers : ℕ → Reader Double}

theorem nnz_rowsOf_le {reader : Reader Double} (valid : reader.Valid rows) :
    nnz (reader.rowsOf rows) ≤ nnz rows := by
  have split := congrArg nnz valid.asks.split
  rw [nnz_append, nnz_append] at split
  omega

theorem Reader.Valid.count_eq_iff {reader : Reader Double} (valid : reader.Valid rows)
    (fits : 2 + rows.length + nnz rows < 2 ^ 31)
    (written : ∀ position : ℕ, file position = (document int double title rows)[position]?) :
    reader.count int file = Int32.ofNat (nnz (reader.rowsOf rows)) ↔
      reader.rowEnd + 1 < rows.length ∨
        (colIndices rows).headD reader.nextRowIa = Int32.ofNat (nnz rows) := by
  rw [valid.asks.count_eq_iff (by omega) (has_sections written).1]
  exact valid.asks.readNext_eq_iff (by omega) written valid.ordered

/-- If every reader counts right, every reader gets its rows. -/
theorem csrioReadRows_of_counts (fits : 2 + rows.length + nnz rows < 2 ^ 31)
    (written : ∀ position : ℕ, file position = (document int double title rows)[position]?)
    (valid : ∀ rank < nprocs, (readers rank).Valid rows)
    (counts : ∀ rank < nprocs,
      (readers rank).count int file = Int32.ofNat (nnz ((readers rank).rowsOf rows)))
    {rank : ℕ} (inside : rank < nprocs) :
    csrioReadRows int double (Int32.ofNat rows.length) (Int32.ofNat (nnz rows)) file nprocs readers
      rank = .ok (LocalRows.of ((readers rank).rowsOf rows)) := by
  have exact {rank : ℕ} (inside : rank < nprocs) :
      (Int32.ofNat (nnz ((readers rank).rowsOf rows))).toInt =
        nnz ((readers rank).rowsOf rows) := by
    have := nnz_rowsOf_le (valid rank inside)
    exact Int32.toInt_ofNat_of_lt (by omega)
  have allMemOk : (List.range nprocs).all (fun rank => (readers rank).myMemOk int file) = true := by
    refine List.all_eq_true.mpr fun rank listed => ?_
    have inside := List.mem_range.mp listed
    refine decide_eq_true ((valid rank inside).room.imp_right fun room => ?_)
    rw [counts rank inside]
    exact Int32.le_iff_toInt_le.mpr ((exact inside).trans_le room)
  have natural : ¬ (readers rank).count int file < 0 := by
    rw [counts rank inside, Int32.lt_iff_toInt_lt, exact inside]
    exact Int.not_lt.mpr (Int.natCast_nonneg _)
  have asks := (valid rank inside).asks
  have starts := (has_sections written).1
  have length : (Int32.ofNat (nnz ((readers rank).rowsOf rows))).toNatClampNeg =
      nnz ((readers rank).rowsOf rows) := by
    rw [Int32.toNatClampNeg, exact inside, Int.toNat_natCast]
  obtain ⟨cols, values⟩ := asks.readRows fits written
    ((List.range (nnz ((readers rank).rowsOf rows))).map (readers rank).myJa)
    ((List.range (nnz ((readers rank).rowsOf rows))).map (readers rank).myA) (by simp) (by simp)
  simp only [csrioReadRows, allMemOk, Bool.not_true, Bool.false_eq_true, if_false, if_neg natural]
  rw [asks.headD_readIa (by omega) starts, asks.localStarts_readIa (by omega) starts,
    counts rank inside, length, cols, values]
  rfl

/-- What a reader returns is what it counted. -/
theorem count_of_csrioReadRows {n nz : Int32} {rank : ℕ} {result : LocalRows Double}
    (reads : csrioReadRows int double n nz file nprocs readers rank = .ok result) :
    (readers rank).count int file = result.myNz := by
  unfold csrioReadRows at reads
  dsimp only at reads
  split_ifs at reads
  cases reads
  rfl

/-- The readers get back what the writers wrote exactly if each of them either stops
before the last row, or finds the number of all nonzeros after it: as the first column
index of the matrix, or in its uninitialised variable if the matrix has no nonzeros. -/
theorem csrio_round_trip (int : Native Int32 4) (double : Native Double 8) (title : List UInt8)
    (parts : List (List (Row Double))) (nprocs : ℕ) (readers : ℕ → Reader Double)
    (someRow : 1 ≤ parts.flatten.length)
    (fits : 2 + parts.flatten.length + nnz parts.flatten < 2 ^ 31)
    (valid : ∀ rank < nprocs, (readers rank).Valid parts.flatten) :
    ReadsBack int double title parts nprocs readers ↔
      ∀ rank < nprocs, (readers rank).rowEnd + 1 < parts.flatten.length ∨
        (colIndices parts.flatten).headD (readers rank).nextRowIa =
          Int32.ofNat (nnz parts.flatten) := by
  have nonempty : parts ≠ [] := by
    rintro rfl
    simp at someRow
  have once := csrioWrite_perm int double title parts nonempty fits
  constructor
  · intro readsBack rank inside
    obtain ⟨file, outcome⟩ := exists_outcome (collective parts.length (csrioWrite int double title
      (Int32.ofNat parts.flatten.length) parts.length (writerArguments parts)))
    refine ((valid rank inside).count_eq_iff fits (outcome.eq_document once)).mp ?_
    exact count_of_csrioReadRows (readsBack file outcome rank inside)
  · intro found file outcome rank inside
    have written := outcome.eq_document once
    exact csrioReadRows_of_counts fits written valid
      (fun rank inside =>
      ((valid rank inside).count_eq_iff fits written).mpr (found rank inside)) inside

end RoundTrip

/-! A matrix of two rows with one nonzero each, one row on each of two writers. -/

private def diagonal : List (List (Row UInt64)) := [[[(0, 11)]], [[(1, 22)]]]

private def rowReader (row : ℕ) (_ : ℕ) : Reader UInt64 where
  rowStart := row
  rowEnd := row
  myNz := 0
  nextRowIa := 7
  myIa _ := 0
  myJa _ := 0
  myA _ := 0

private theorem rowReader_valid {row : ℕ} (inside : row < 2) (rank : ℕ) :
    (rowReader row rank).Valid diagonal.flatten where
  ordered := Nat.le_refl _
  inside := inside
  room := .inl rfl

theorem csrio_round_trip_first_row :
    ReadsBack littleEndianInt littleEndianWord [] diagonal 1 (rowReader 0) :=
  (csrio_round_trip littleEndianInt littleEndianWord [] diagonal 1 (rowReader 0) (by decide)
    (by decide) fun rank _ => rowReader_valid (by decide) rank).mpr fun _ _ => .inl Nat.one_lt_two

/-- A reader of the last row takes the first column index, `0`, for the end of its row. -/
theorem last_row_not_read :
    (∀ rank < 1, (rowReader 1 rank).Valid diagonal.flatten) ∧
      ¬ ReadsBack littleEndianInt littleEndianWord [] diagonal 1 (rowReader 1) := by
  have valid := fun rank => rowReader_valid (by decide : 1 < 2) rank
  refine ⟨fun rank _ => valid rank, fun readsBack => ?_⟩
  obtain ⟨file, outcome⟩ := exists_outcome (collective diagonal.length (csrioWrite littleEndianInt
    littleEndianWord [] (Int32.ofNat diagonal.flatten.length) diagonal.length
    (writerArguments diagonal)))
  have written := outcome.eq_document (csrioWrite_perm littleEndianInt littleEndianWord [] diagonal
    (by decide) (by decide))
  have counted := count_of_csrioReadRows (readsBack file outcome 0 Nat.one_pos)
  exact absurd (((valid 0).count_eq_iff (by decide) written).mp counted) (by decide)

end HandsOn.Sparse
