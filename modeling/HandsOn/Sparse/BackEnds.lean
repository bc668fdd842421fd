import HandsOn.Mpi.Span
import HandsOn.Sparse.CsrioRead
import HandsOn.Sparse.CsrioStdout

/-!
# The same matrix on the terminal and in the file

`CSRIO_Write` of `csrio-stdout.c` prints what `CSRIO_Write` of `csrio-mpiio.c` stores, as long as
it comes to the values and the sums of ints in the offsets of the file do not overflow.
-/

namespace HandsOn.Sparse

open HandsOn.Mpi Semantics

universe u

variable {Double : Type u}

/-- A file stores what is printed, with the values `a`, at the places of a matrix with `n` rows and
`nz` nonzeros. -/
structure Stored (int : Native Int32 4) (double : Native Double 8) (n nz : ℕ)
    (printed : Printed Double) (a : List Double) (file : File) : Prop where
  counts : Has file 80 (int.encodeAll [printed.n, printed.nz])
  ia : Has file 88 (int.encodeAll printed.ia)
  ja : Has file ((88 + n * 4 : ℕ) : Int) (int.encodeAll printed.ja)
  a : Has file ((88 + n * 4 + nz * 4 : ℕ) : Int) (double.encodeAll a)

/-- Whatever rank 0 finds in the arrays that it has allocated, it prints whole arrays, and every
file that the ranks may leave stores them. The `prev_nz` of rank 0 is 0. -/
def SameMatrix {Pointer : Type} [DecidableEq Pointer] (memory : Allocator Pointer)
    (int : Native Int32 4) (double : Native Double 8) (filename title : List UInt8)
    (parts : List (List (Row Double))) : Prop :=
  let n := parts.flatten.length
  let nz := nnz parts.flatten
  ∀ undefined : Undefined Double n nz, undefined.prevNz = 0 →
    ∃ printed a, csrioStdoutWrite memory filename title (Int32.ofNat n) parts.length
        (writerArguments parts) undefined = some printed ∧ printed.a = some a ∧
      printed.ia.length = n ∧ printed.ja.length = nz ∧ a.length = nz ∧
      ∀ file, Outcome (collective parts.length (csrioWrite int double title (Int32.ofNat n)
        parts.length (writerArguments parts))) file → Stored int double n nz printed a file

/-- Where the parts are written, `malloc` gives `all_ja` the region that `all_ia` had. -/
def Reuses {Pointer : Type} [DecidableEq Pointer] (memory : Allocator Pointer)
    (parts : List (List (Row Double))) : Prop :=
  (partsRegions parts memory).allJa = (partsRegions parts memory).allIa

instance {Pointer : Type} [DecidableEq Pointer] (memory : Allocator Pointer)
    (parts : List (List (Row Double))) : Decidable (Reuses memory parts) :=
  inferInstanceAs (Decidable (_ = _))

/-! ### What is printed -/

/-- What rank 0 prints where its `prev_nz` is 0 and it comes to the values. -/
def printedMatrix (filename title : List UInt8) (rows : List (Row Double)) : Printed Double where
  filename := filename.takeWhile (· ≠ 0)
  title := title.takeWhile (· ≠ 0)
  n := Int32.ofNat rows.length
  nz := Int32.ofNat (nnz rows)
  ia := rowStarts rows
  ja := colIndices rows
  a := some (entries rows)

/-- The row starts that rank 0 gathers where its `prev_nz` is 0. -/
theorem flatMap_sentIa_zero (parts : List (List (Row Double))) (count : ℕ) :
    (List.range count).flatMap (sentIa parts 0) = rowStarts (rowsBefore parts count) := by
  induction count with
  | zero => rfl
  | succ count ih =>
    have before : prevNz 0 (fun rank => (writerArguments parts rank).myNz) count =
        Int32.ofNat (nnz (rowsBefore parts count)) := by
      rw [← exscan_writerArguments, prevNz]
      split
      case isTrue first => rw [first]; rfl
      case isFalse => rfl
    rw [List.range_succ, List.flatMap_append, ih, List.flatMap_singleton, rowsBefore_succ,
      rowStarts_append, sentIa, before]
    rfl

section

variable {Pointer : Type} [DecidableEq Pointer] (memory : Allocator Pointer)
  (int : Native Int32 4) (double : Native Double 8) (filename title : List UInt8)
  (parts : List (List (Row Double)))

/-- Rank 0 comes to the values exactly if `all_ja` is where `all_ia` was. -/
theorem leavesCounts_partsRegions_iff :
    (partsRegions parts memory).LeavesCounts ↔ Reuses memory parts :=
  (rootRegions_apart memory _ _ _ _).leavesCounts_iff

/-- What is printed does not depend on the arrays that rank 0 allocates. -/
theorem csrioStdoutWrite_zero (small : parts.flatten.length < 2 ^ 31 ∧ nnz parts.flatten < 2 ^ 31)
    (undefined : Undefined Double parts.flatten.length (nnz parts.flatten))
    (zero : undefined.prevNz = 0) :
    csrioStdoutWrite memory filename title (Int32.ofNat parts.flatten.length) parts.length
        (writerArguments parts) undefined =
      some { printedMatrix filename title parts.flatten with
        a := if Reuses memory parts then some (entries parts.flatten) else none } := by
  rw [csrioStdoutWrite_eq parts memory filename title small, zero, flatMap_sentIa_zero,
    rowsBefore_length]
  simp only [leavesCounts_partsRegions_iff]
  rfl

/-- Both versions describe the same matrix exactly if rank 0 comes to the values and every file
stores what is printed. -/
theorem sameMatrix_iff [Inhabited Double]
    (small : parts.flatten.length < 2 ^ 31 ∧ nnz parts.flatten < 2 ^ 31) :
    SameMatrix memory int double filename title parts ↔ Reuses memory parts ∧
      ∀ file, Outcome (collective parts.length (csrioWrite int double title
        (Int32.ofNat parts.flatten.length) parts.length (writerArguments parts))) file →
          Stored int double parts.flatten.length (nnz parts.flatten)
            (printedMatrix filename title parts.flatten) (entries parts.flatten) file := by
  constructor
  · intro same
    obtain ⟨printed, a, prints, values, -, -, -, stores⟩ := same (freshMemory _ _ 0) rfl
    rw [csrioStdoutWrite_zero memory filename title parts small _ rfl] at prints
    obtain rfl := Option.some.inj prints
    obtain ⟨reuses, all⟩ := Option.ite_none_right_eq_some.mp values
    obtain rfl := Option.some.inj all
    exact ⟨reuses, fun file outcome =>
      have stored := stores file outcome
      ⟨stored.counts, stored.ia, stored.ja, stored.a⟩⟩
  · rintro ⟨reuses, stores⟩ undefined zero
    have prints := csrioStdoutWrite_zero memory filename title parts small undefined zero
    rw [if_pos reuses] at prints
    exact ⟨_, _, prints, rfl, length_rowStarts _, length_colIndices _, length_entries _, stores⟩

/-! ### What is stored -/

variable {parts}

theorem stored_of_addressed (nonempty : parts ≠ [])
    (small : parts.flatten.length < 2 ^ 31 ∧ nnz parts.flatten < 2 ^ 31)
    (addressed : Addressed parts) {file : File}
    (outcome : Outcome (collective parts.length (csrioWrite int double title
      (Int32.ofNat parts.flatten.length) parts.length (writerArguments parts))) file) :
    Stored int double parts.flatten.length (nnz parts.flatten)
      (printedMatrix filename title parts.flatten) (entries parts.flatten) file := by
  have written := outcome.eq_document
    (csrioWrite_perm_of_addressed int double title parts nonempty small addressed)
  obtain ⟨starts, cols, values⟩ := has_sections written
  exact ⟨has_counts written, starts, cols, values⟩

/-! ### What is missing -/

/-- The last byte of the document. -/
def lastByte (rows : List (Row Double)) : Int :=
  88 + (rows.length : Int) * 4 + (nnz rows : Int) * 12 - 1

/-- A file that stores the matrix has its last byte. -/
theorem Stored.lastByte_isSome {file : File} {rows : List (Row Double)}
    (stored : Stored int double rows.length (nnz rows) (printedMatrix filename title rows)
      (entries rows) file) :
    (file (lastByte rows)).isSome = true := by
  have last {offset : Int} {bytes : List UInt8} (holds : Has file offset bytes)
      (some : 0 < bytes.length) (ends : offset + bytes.length = lastByte rows + 1) :
      (file (lastByte rows)).isSome = true := by
    have here := holds (bytes.length - 1) _ (List.getElem?_eq_getElem (Nat.sub_one_lt_of_lt some))
    rw [show lastByte rows = offset + ((bytes.length - 1 : ℕ) : Int) by omega, here]
    rfl
  rcases Nat.eq_zero_or_pos (nnz rows) with noValues | someValues
  · rcases Nat.eq_zero_or_pos rows.length with noRows | someRows
    · refine last stored.counts ?_ ?_ <;> simp [lastByte, noValues, noRows]
    · refine last stored.ia ?_ ?_
      · simp [printedMatrix, someRows]
      · simp [printedMatrix, lastByte, noValues]
  · refine last stored.a ?_ ?_
    · simp [someValues]
    · simp only [lastByte, Native.length_encodeAll, length_entries]
      push_cast
      omega

/-- Rows that end where the matrix ends begin after those that hold the last row. -/
theorem rowsBefore_le (parts : List (List (Row Double))) {rank later : ℕ} (ordered : rank ≤ later) :
    (rowsBefore parts rank).length ≤ (rowsBefore parts later).length := by
  obtain ⟨more, rfl⟩ := Nat.exists_eq_add_of_le ordered
  induction more with
  | zero => exact Nat.le_refl _
  | succ more ih =>
    refine Nat.le_trans (ih (Nat.le_add_right _ _)) ?_
    rw [← Nat.add_assoc, rowsBefore_succ, List.length_append]
    exact Nat.le_add_right _ _

/-- Where an offset overflows, the matrix is large. -/
theorem large_of_overflow (overflow : ¬ Addressed parts) :
    2 ^ 31 ≤ 2 + parts.flatten.length + nnz parts.flatten := by
  by_contra fits
  exact overflow (Or.inl (Nat.not_le.mp fits))

/-- The row starts of a rank end before the last byte. -/
theorem rows_before_lastByte (small : parts.flatten.length < 2 ^ 31 ∧ nnz parts.flatten < 2 ^ 31)
    (overflow : ¬ Addressed parts) (rank : ℕ) :
    80 + byteOffset (2 + Int32.ofNat (rowsBefore parts rank).length) 4 +
      ((parts.getD rank []).length * 4 : ℕ) ≤ lastByte parts.flatten := by
  have inRows := (rowsBefore_add_le parts rank).1
  have large := large_of_overflow overflow
  have sum : 2 + Int32.ofNat (rowsBefore parts rank).length =
      Int32.ofNat (2 + (rowsBefore parts rank).length) := (Int32.ofNat_add _ _).symm
  rw [sum, byteOffset_eq _ (by decide), lastByte]
  rcases Nat.lt_or_ge (2 + (rowsBefore parts rank).length) (2 ^ 31) with fits | past
  · rw [Int32.toInt_ofNat_of_lt fits]
    rcases Nat.eq_zero_or_pos (nnz parts.flatten) with noValues | someValues
    · -- the rank that overflows holds the last row, and a later one
      have starts : ∃ last, parts.getD last [] ≠ [] ∧
          2 ^ 31 ≤ 2 + (rowsBefore parts last).length := by
        by_contra fits
        refine overflow (Or.inr ⟨noValues, fun last some => Nat.not_le.mp fun past => ?_⟩)
        exact fits ⟨last, some, past⟩
      obtain ⟨last, some, past⟩ := starts
      have before : rank < last := by
        by_contra after
        have later := rowsBefore_le parts (Nat.not_lt.mp after)
        omega
      have ends := rowsBefore_le parts before
      rw [rowsBefore_succ, List.length_append] at ends
      have inLast := (rowsBefore_add_le parts last).1
      have positive := List.length_pos_iff.mpr some
      omega
    · omega
  · rw [toInt_ofNat_overflow past (by omega)]
    omega

/-- The values of a rank end before the last byte. -/
theorem values_before_lastByte
    (small : parts.flatten.length < 2 ^ 31 ∧ nnz parts.flatten < 2 ^ 31)
    (overflow : ¬ Addressed parts) (rank : ℕ) (some : 0 < nnz (parts.getD rank [])) :
    80 + byteOffset (2 + Int32.ofNat parts.flatten.length +
        Int32.ofNat (nnz (rowsBefore parts rank))) 4 + (nnz (parts.getD rank []) * 4 : ℕ) ≤
      lastByte parts.flatten ∧
    80 + byteOffset (2 + Int32.ofNat parts.flatten.length + Int32.ofNat (nnz parts.flatten)) 4 +
        byteOffset (Int32.ofNat (nnz (rowsBefore parts rank))) 8 +
        (nnz (parts.getD rank []) * 8 : ℕ) ≤ lastByte parts.flatten := by
  have inNz := (rowsBefore_add_le parts rank).2
  have large := large_of_overflow overflow
  have sum (count : ℕ) : 2 + Int32.ofNat parts.flatten.length + Int32.ofNat count =
      Int32.ofNat (2 + parts.flatten.length + count) := by
    rw [Int32.ofNat_add, Int32.ofNat_add]
    rfl
  have low := toInt_ofNat_le (2 + parts.flatten.length + nnz (rowsBefore parts rank))
  rw [sum, sum, byteOffset_eq _ (by decide), byteOffset_eq _ (by decide),
    toInt_ofNat_overflow large (by omega),
    byteOffset_ofNat (show nnz (rowsBefore parts rank) < 2 ^ 31 by omega) (by decide), lastByte]
  omega

/-- If an offset overflows, no rank writes the last byte of the document. -/
theorem landed_lastByte (small : parts.flatten.length < 2 ^ 31 ∧ nnz parts.flatten < 2 ^ 31)
    (overflow : ¬ Addressed parts) :
    landed (collective parts.length (csrioWrite int double title
      (Int32.ofNat parts.flatten.length) parts.length (writerArguments parts)))
        (lastByte parts.flatten) = [] := by
  have large := large_of_overflow overflow
  have header :
      landed (writeAt 0 (header int title parts.flatten)) (lastByte parts.flatten) = [] := by
    refine landed_writeAt_past _ ?_
    rw [length_header, lastByte]
    omega
  rw [landed_collective, List.flatMap_eq_nil_iff]
  intro rank _
  rw [csrioWrite_int_offsets int double title parts rank small, landed_append, landed_append,
    landed_append, List.append_eq_nil_iff, List.append_eq_nil_iff, List.append_eq_nil_iff]
  refine ⟨?_, landed_writeAt_past _ ?_, ?_⟩
  · split
    · exact header
    · rfl
  · rw [Native.length_encodeAll, List.length_map, length_rowStarts]
    exact rows_before_lastByte small overflow rank
  · rcases Nat.eq_zero_or_pos (nnz (parts.getD rank [])) with none | some
    · have cols : colIndices (parts.getD rank []) = [] :=
        List.eq_nil_of_length_eq_zero ((length_colIndices _).trans none)
      have values : entries (parts.getD rank []) = [] :=
        List.eq_nil_of_length_eq_zero ((length_entries _).trans none)
      rw [cols, values]
      exact ⟨rfl, rfl⟩
    · obtain ⟨cols, values⟩ := values_before_lastByte small overflow rank some
      refine ⟨landed_writeAt_past _ ?_, landed_writeAt_past _ ?_⟩
      · rwa [Native.length_encodeAll, length_colIndices]
      · rwa [Native.length_encodeAll, length_entries]

/-- If an offset overflows, the file lacks the last byte. -/
theorem not_sameMatrix_of_overflow [Inhabited Double]
    (small : parts.flatten.length < 2 ^ 31 ∧ nnz parts.flatten < 2 ^ 31)
    (overflow : ¬ Addressed parts) : ¬ SameMatrix memory int double filename title parts := by
  rw [sameMatrix_iff memory int double filename title parts small]
  rintro ⟨-, stores⟩
  obtain ⟨file, outcome⟩ := exists_outcome (collective parts.length (csrioWrite int double title
    (Int32.ofNat parts.flatten.length) parts.length (writerArguments parts)))
  have last := (stores file outcome).lastByte_isSome
  rw [outcome.eq_none (landed_lastByte int double title small overflow)] at last
  exact Bool.false_ne_true last

/-- Both versions of `CSRIO_Write` describe the same matrix exactly if the second `free(all_ia)`
frees `all_ja` and the `int` sums in the offsets of the file do not overflow where something is
written. -/
theorem back_ends_agree_iff [Inhabited Double] (nonempty : parts ≠ [])
    (small : parts.flatten.length < 2 ^ 31 ∧ nnz parts.flatten < 2 ^ 31) :
    SameMatrix memory int double filename title parts ↔
      Reuses memory parts ∧ Addressed parts := by
  constructor
  · intro same
    refine ⟨((sameMatrix_iff memory int double filename title parts small).mp same).1, ?_⟩
    by_contra overflow
    exact not_sameMatrix_of_overflow memory int double filename title small overflow same
  · rintro ⟨reuses, addressed⟩
    rw [sameMatrix_iff memory int double filename title parts small]
    refine ⟨reuses, fun file outcome => ?_⟩
    exact stored_of_addressed int double filename title nonempty small addressed outcome

end

/-- Three ranks, the first of which has no rows, and an empty row. The arrays of eight rows and of
seven nonzeros are of the same size class, those of three counts of another one. -/
theorem back_ends_agree_three :
    SameMatrix recycling littleEndianInt littleEndianWord [] []
      [[], [[((0 : Int32), (5 : UInt64))], [(1, 6)], []],
        [[(3, 4)], [(2, 9)], [(0, 1), (2, 7)], [(1, 8)], []]] :=
  (back_ends_agree_iff recycling littleEndianInt littleEndianWord [] []
    (by decide) (by decide)).mpr ⟨by decide, Or.inl (by decide)⟩

/-- A row with an entry in each of 2147483645 columns. -/
def longRow : Row UInt64 := (List.range (2 ^ 31 - 3)).map fun column => (Int32.ofNat column, 5)

/-- One nonzero: `nz_disp` is where `all_ia` was, and is freed before it is used. And a long row,
whose values are written before the file begins, wherever `malloc` finds memory. -/
theorem one_row_not_same :
    ¬ SameMatrix recycling littleEndianInt littleEndianWord [] []
      [[[((0 : Int32), (5 : UInt64))]]] ∧
    ∀ memory : Allocator (ℕ × ℕ),
      ¬ SameMatrix memory littleEndianInt littleEndianWord [] [] [[longRow]] := by
  constructor
  · intro same
    have reuses := ((sameMatrix_iff _ _ _ _ _ _ (by decide)).mp same).1
    exact absurd reuses (by decide)
  · intro memory
    have rows : ([[longRow]] : List (List (Row UInt64))).flatten.length = 1 := rfl
    have nonzeros : nnz ([[longRow]] : List (List (Row UInt64))).flatten = 2 ^ 31 - 3 := by
      simp [nnz, longRow]
    refine not_sameMatrix_of_overflow _ _ _ _ _
      ⟨by rw [rows]; omega, by rw [nonzeros]; omega⟩ ?_
    rw [Addressed, rows, nonzeros]
    omega

end HandsOn.Sparse
