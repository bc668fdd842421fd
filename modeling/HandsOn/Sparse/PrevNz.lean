import HandsOn.Sparse.Csr

/-!
# `CSRIO_Write` and the undefined `prev_nz` of rank 0

`MPI_Exscan` leaves the receive buffer of rank 0 undefined, and rank 0 uses its `prev_nz`
as the other ranks do. The model of `Csr.lean` has it hold `0`; here it holds any value.
-/

namespace HandsOn.Sparse

open HandsOn.Mpi

universe u

variable {Double : Type u}

/-- `prev_nz` after `MPI_Exscan`: on rank 0 what it held before. -/
def prevNz (undefined : Int32) (myNz : ℕ → Int32) (rank : ℕ) : Int32 :=
  if rank = 0 then undefined else exscan myNz rank

/-- What a rank writes in `CSRIO_Write`, given its `prev_nz` and `tot_nz`. -/
def writeShare (int : Native Int32 4) (double : Native Double 8) (title : List UInt8) (n : Int32)
    (prevNz totNz : Int32) (args : WriteArguments Double) (rank : ℕ) : List (Int × UInt8) :=
  let ⟨myNz, rowStart, rowEnd, myIa, myJa, myA⟩ := args
  let headerWrites :=
    if rank = 0 then writeAt 0 (titlebuf title) ++ writeAt 80 (int.encodeAll [n, totNz]) else []
  let tmpIa := myIa.map (· + prevNz)
  let blklens := [(rowEnd - rowStart + 1).toNatClampNeg, myNz.toNatClampNeg, myNz.toNatClampNeg]
  let myfilerowoffset := 80 + byteOffset (2 + rowStart) 4
  let myfilecoloffset := 80 + byteOffset (2 + n + prevNz) 4
  let myfiledataoffset := 80 + byteOffset (2 + n + totNz) 4 + byteOffset prevNz 8
  let filetype := Datatype.struct 3 blklens [myfilerowoffset, myfilecoloffset, myfiledataoffset]
    [Datatype.int, Datatype.int, Datatype.double]
  headerWrites ++ writeView filetype
    (int.encodeAll tmpIa ++ (int.encodeAll myJa ++ double.encodeAll myA))

/-- What a rank writes in `CSRIO_Write`, where rank 0 found `undefined` in its `prev_nz`. -/
def csrioWriteFrom (undefined : Int32) (int : Native Int32 4) (double : Native Double 8)
    (title : List UInt8) (n : Int32) (nprocs : ℕ) (args : ℕ → WriteArguments Double) (rank : ℕ) :
    List (Int × UInt8) :=
  writeShare int double title n (prevNz undefined (fun rank => (args rank).myNz) rank)
    (exscan (fun rank => (args rank).myNz) nprocs) (args rank) rank

variable (int : Native Int32 4) (double : Native Double 8) (title : List UInt8) (n : Int32)

/-- Ranks above 0 do not use the undefined value. -/
theorem csrioWriteFrom_later (undefined : Int32) (nprocs : ℕ) (args : ℕ → WriteArguments Double)
    {rank : ℕ} (later : rank ≠ 0) :
    csrioWriteFrom undefined int double title n nprocs args rank =
      csrioWrite int double title n nprocs args rank := by
  rw [csrioWriteFrom, prevNz, if_neg later]
  rfl

/-- The model of `Csr.lean` is the one in which `prev_nz` holds `0`. -/
theorem csrioWriteFrom_zero (nprocs : ℕ) (args : ℕ → WriteArguments Double) :
    csrioWriteFrom 0 int double title n nprocs args =
      csrioWrite int double title n nprocs args := by
  funext rank
  by_cases first : rank = 0
  · subst first
    rfl
  · exact csrioWriteFrom_later int double title n 0 nprocs args first

variable (parts : List (List (Row Double)))

/-- The writes of all ranks. -/
def writesFrom (undefined : Int32) : List (Int × UInt8) :=
  collective parts.length (csrioWriteFrom undefined int double title
    (Int32.ofNat parts.flatten.length) parts.length (writerArguments parts))

/-- What rank 0 writes: the header and its share of the arrays, of which only the row
starts have a place of their own. -/
theorem csrioWriteFrom_first (undefined : Int32)
    (fits : 2 + parts.flatten.length + nnz parts.flatten < 2 ^ 31) :
    let rows := parts.flatten
    let part := parts.getD 0 []
    csrioWriteFrom undefined int double title (Int32.ofNat rows.length) parts.length
        (writerArguments parts) 0 =
      writeAt 0 (header int title rows) ++
        (writeAt 88 (int.encodeAll ((rowStarts part).map (· + undefined))) ++
          (writeAt (80 + byteOffset (2 + Int32.ofNat rows.length + undefined) 4)
              (int.encodeAll (colIndices part)) ++
            writeAt (80 + byteOffset (2 + Int32.ofNat rows.length + Int32.ofNat (nnz rows)) 4 +
              byteOffset undefined 8) (double.encodeAll (entries part)))) := by
  intro rows part
  obtain ⟨inRows, inNz⟩ := rowsBefore_add_le parts 0
  rw [rowsBefore_zero, List.length_nil, Nat.zero_add] at inRows
  rw [rowsBefore_zero, nnz_nil, Nat.zero_add] at inNz
  change part.length ≤ rows.length at inRows
  change nnz part ≤ nnz rows at inNz
  change 2 + rows.length + nnz rows < 2 ^ 31 at fits
  have blklenNz : (writerArguments parts 0).myNz.toNatClampNeg = nnz part :=
    Int32.toNatClampNeg_ofNat_of_lt (show nnz part < 2 ^ 31 by omega)
  have rowOffset : 80 + byteOffset (2 + (writerArguments parts 0).rowStart) 4 = 88 := rfl
  rw [csrioWriteFrom, prevNz, if_pos rfl, exscan_writerArguments, rowsBefore_length]
  simp only [writeShare]
  rw [blklen_rows parts (show part.length < 2 ^ 31 by omega), blklenNz, rowOffset,
    writeAt_header int title rows]
  refine congrArg (_ ++ ·) (writeView_struct (part.length, nnz part, nnz part) (_, _, _) ?_ ?_ ?_)
  · simp [writerArguments, part]
  · simp [writerArguments, part]
  · simp [writerArguments, part]

/-- A rank 0 without rows does not use its `prev_nz`. -/
theorem writesFrom_eq_of_empty (undefined : Int32) (empty : parts.getD 0 [] = [])
    (fits : 2 + parts.flatten.length + nnz parts.flatten < 2 ^ 31) :
    writesFrom int double title parts undefined = writesFrom int double title parts 0 := by
  refine congrArg (collective parts.length) (funext fun rank => ?_)
  by_cases first : rank = 0
  · subst first
    rw [csrioWriteFrom_first int double title parts undefined fits,
      csrioWriteFrom_first int double title parts 0 fits, empty]
    simp [rowStarts, colIndices, entries, Native.encodeAll, writeAt]
  · rw [csrioWriteFrom_later int double title _ undefined _ _ first,
      csrioWriteFrom_later int double title _ 0 _ _ first]

/-- The rows of rank 0 are rows of the matrix. -/
theorem some_row_of_first (some_rows : parts.getD 0 [] ≠ []) :
    0 < parts.length ∧ 0 < (parts.getD 0 []).length ∧
      (parts.getD 0 []).length ≤ parts.flatten.length ∧
      nnz (parts.getD 0 []) ≤ nnz parts.flatten := by
  have within := rowsBefore_add_le parts 0
  rw [rowsBefore_zero, List.length_nil, Nat.zero_add, nnz_nil, Nat.zero_add] at within
  refine ⟨?_, List.length_pos_iff.mpr some_rows, within⟩
  rw [List.length_pos_iff]
  rintro rfl
  exact some_rows rfl

/-- What a later rank writes starts after the first row start. -/
theorem landed_later {rank index : ℕ} (later : rank ≠ 0) (undefined : Int32)
    (some_rows : parts.getD 0 [] ≠ []) (inside : index < 4)
    (fits : 2 + parts.flatten.length + nnz parts.flatten < 2 ^ 31) :
    landed (csrioWriteFrom undefined int double title (Int32.ofNat parts.flatten.length)
      parts.length (writerArguments parts) rank) (88 + (index : Int)) = [] := by
  obtain ⟨_, positive, inRows, _⟩ := some_row_of_first parts some_rows
  have before : (parts.getD 0 []).length ≤ (rowsBefore parts rank).length := by
    obtain ⟨earlier, rfl⟩ := Nat.exists_eq_succ_of_ne_zero later
    cases parts with
    | nil => exact absurd rfl some_rows
    | cons part rest => simp [rowsBefore]
  rw [csrioWriteFrom_later int double title _ undefined _ _ later,
    csrioWrite_eq int double title parts rank fits, if_neg later, List.nil_append, landed_append,
    landed_append, landed_writeAt_before _ (by omega), landed_writeAt_before _ (by omega),
    landed_writeAt_before _ (by omega)]
  rfl

/-- A later share of rank 0's arrays does not reach the first row start. -/
theorem landed_shifted {bytes : List UInt8} {offset : Int} {index : ℕ} (inside : index < 4)
    (after : bytes ≠ [] → 92 ≤ offset) :
    landed (writeAt offset bytes) (88 + (index : Int)) = [] := by
  by_cases empty : bytes = []
  · rw [empty]
    rfl
  · exact landed_writeAt_before bytes (by have := after empty; omega)

/-- The first row start of a part is the offset added to all of them. -/
theorem getElem?_starts {part : List (Row Double)} {index : ℕ} (some_rows : part ≠ [])
    (inside : index < 4) (offset : Int32) :
    (int.encodeAll ((rowStarts part).map (· + offset)))[index]? = (int.encode offset)[index]? := by
  obtain ⟨row, rest, rfl⟩ := List.exists_cons_of_ne_nil some_rows
  rw [rowStarts_cons, List.map_cons, Int32.zero_add, Native.encodeAll, List.flatMap_cons,
    List.getElem?_append_left (by rwa [int.length_encode])]

/-- With small values of `prev_nz`, the first row start in the file is that value. -/
theorem landed_first_start {small index : ℕ} (one : small ≤ 1) (inside : index < 4)
    (some_rows : parts.getD 0 [] ≠ [])
    (fits : 2 + parts.flatten.length + nnz parts.flatten < 2 ^ 31) :
    landed (writesFrom int double title parts (Int32.ofNat small)) (88 + (index : Int)) =
      (int.encode (Int32.ofNat small))[index]?.toList := by
  obtain ⟨ranks, positive, inRows, inNz⟩ := some_row_of_first parts some_rows
  obtain ⟨others, count⟩ := Nat.exists_eq_succ_of_ne_zero ranks.ne'
  have later : (List.range others).flatMap (fun rank =>
      landed (csrioWriteFrom (Int32.ofNat small) int double title (Int32.ofNat parts.flatten.length)
        parts.length (writerArguments parts) rank.succ) (88 + (index : Int))) = [] :=
    List.flatMap_eq_nil_iff.mpr fun rank _ =>
      landed_later int double title parts rank.succ_ne_zero _ some_rows inside fits
  have inHeader :
      landed (writeAt 0 (header int title parts.flatten)) (88 + (index : Int)) = [] := by
    have past := landed_writeAt 0 (header int title parts.flatten) (88 + index)
    rw [List.getElem?_eq_none (by rw [length_header]; omega)] at past
    rwa [Int.zero_add, Nat.cast_add] at past
  have inCols : landed (writeAt
      (80 + byteOffset (2 + Int32.ofNat parts.flatten.length + Int32.ofNat small) 4)
      (int.encodeAll (colIndices (parts.getD 0 [])))) (88 + (index : Int)) = [] := by
    refine landed_shifted inside fun nonempty => ?_
    have some_nz : nnz (parts.getD 0 []) ≠ 0 := by
      intro zero
      have length := int.length_encodeAll (colIndices (parts.getD 0 []))
      rw [length_colIndices, zero, Nat.zero_mul] at length
      exact nonempty (List.eq_nil_of_length_eq_zero length)
    rw [byteOffset_two_add (by omega)]
    omega
  have inData : landed (writeAt (80 + byteOffset (2 + Int32.ofNat parts.flatten.length +
      Int32.ofNat (nnz parts.flatten)) 4 + byteOffset (Int32.ofNat small) 8)
      (double.encodeAll (entries (parts.getD 0 [])))) (88 + (index : Int)) = [] := by
    refine landed_shifted inside fun _ => ?_
    rw [byteOffset_two_add fits, byteOffset_ofNat (by omega) (by decide)]
    omega
  have split : List.range parts.length = 0 :: (List.range others).map Nat.succ := by
    rw [count, List.range_succ_eq_map]
  rw [writesFrom, landed_collective, split, List.flatMap_cons, List.flatMap_map, later,
    List.append_nil, csrioWriteFrom_first int double title parts _ fits, landed_append,
    landed_append, landed_append, inHeader, inCols, inData, List.nil_append, List.append_nil,
    List.append_nil, landed_writeAt, getElem?_starts int some_rows inside]

/-- The file does not depend on the undefined value exactly if rank 0 holds no rows. -/
theorem file_independent_iff (nonempty : parts ≠ [])
    (fits : 2 + parts.flatten.length + nnz parts.flatten < 2 ^ 31) :
    (∀ (first second : Int32) (file file' : File),
      Outcome (writesFrom int double title parts first) file →
      Outcome (writesFrom int double title parts second) file' → file = file') ↔
      parts.getD 0 [] = [] := by
  constructor
  · intro independent
    by_contra some_rows
    obtain ⟨file, zero⟩ := exists_outcome (writesFrom int double title parts (Int32.ofNat 0))
    obtain ⟨file', one⟩ := exists_outcome (writesFrom int double title parts (Int32.ofNat 1))
    have same := independent _ _ file file' zero one
    have stored : ∀ {small : ℕ} {file : File}, small ≤ 1 →
        Outcome (writesFrom int double title parts (Int32.ofNat small)) file →
        ∀ {index : ℕ} (inside : index < 4),
          file (88 + (index : Int)) = (int.encode (Int32.ofNat small))[index]? := by
      intro small file le_one outcome index inside
      have landing := landed_first_start int double title parts le_one inside some_rows fits
      rw [List.getElem?_eq_getElem (by rwa [int.length_encode])] at landing ⊢
      exact outcome.eq_of_singleton landing
    have starts : int.encode (Int32.ofNat 0) = int.encode (Int32.ofNat 1) := by
      apply List.ext_getElem?
      intro index
      by_cases inside : index < 4
      · rw [← stored (Nat.zero_le 1) zero inside, ← stored (Nat.le_refl 1) one inside, same]
      · rw [List.getElem?_eq_none (by rw [int.length_encode]; omega),
          List.getElem?_eq_none (by rw [int.length_encode]; omega)]
    exact absurd (int.encode_injective starts) (by decide)
  · intro empty first second file file' stored stored'
    rw [writesFrom_eq_of_empty int double title parts _ empty fits] at stored stored'
    have once := csrioWrite_perm int double title parts nonempty fits
    rw [← csrioWriteFrom_zero, ← writesFrom] at once
    exact stored.unique once stored'

end HandsOn.Sparse
