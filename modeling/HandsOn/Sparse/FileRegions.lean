import HandsOn.Mpi.Span
import HandsOn.Sparse.Csr

/-!
# The regions of the file that the ranks write

`CSRIO_Write` of `csrio-mpiio.c` for ranks that hold any ranges of rows, in any order. Every byte
of the file is written by one rank, in one of its regions or in the header.
-/

namespace HandsOn.Sparse

open HandsOn.Mpi

universe u

variable {Double : Type u}

namespace WriteArguments

variable (args : WriteArguments Double)

/-- `row_end - row_start + 1` -/
def rows : ℕ := (args.rowEnd.toInt + 1 - args.rowStart.toInt).toNat

/-- `my_nz` -/
def nonzeros : ℕ := args.myNz.toInt.toNat

end WriteArguments

/-- The nonzeros of the ranks below a rank. -/
def nonzerosBefore (args : ℕ → WriteArguments Double) (rank : ℕ) : ℕ :=
  ((List.range rank).map fun rank => (args rank).nonzeros).sum

/-- The ranks hold the rows below `n` in ranges, each row in one of them, and arrays of their
lengths. -/
structure Partitions (n nprocs : ℕ) (args : ℕ → WriteArguments Double) : Prop where
  ranks : 0 < nprocs
  start : ∀ rank < nprocs, 0 ≤ (args rank).rowStart.toInt
  ordered : ∀ rank < nprocs, (args rank).rowStart.toInt ≤ (args rank).rowEnd.toInt + 1
  inside : ∀ rank < nprocs, (args rank).rowEnd.toInt < n
  once : ∀ row < n, ∃! rank, rank < nprocs ∧ (args rank).rowStart.toInt ≤ row ∧
    (row : Int) ≤ (args rank).rowEnd.toInt
  nonneg : ∀ rank < nprocs, 0 ≤ (args rank).myNz.toInt
  lengthIa : ∀ rank < nprocs, (args rank).myIa.length = (args rank).rows
  lengthJa : ∀ rank < nprocs, (args rank).myJa.length = (args rank).nonzeros
  lengthA : ∀ rank < nprocs, (args rank).myA.length = (args rank).nonzeros
  fits : 2 + n + nonzerosBefore args nprocs < 2 ^ 31

/-- `disps`, the displacements of the file type of a rank. -/
def fileDisplacements (n : Int32) (nprocs : ℕ) (args : ℕ → WriteArguments Double) (rank : ℕ) :
    List Int :=
  let prevNz := exscan (fun rank => (args rank).myNz) rank
  let totNz := exscan (fun rank => (args rank).myNz) nprocs
  [80 + byteOffset (2 + (args rank).rowStart) 4, 80 + byteOffset (2 + n + prevNz) 4,
    80 + byteOffset (2 + n + totNz) 4 + byteOffset prevNz 8]

/-- The file type of a rank has these displacements. -/
theorem csrioWrite_displacements (int : Native Int32 4) (double : Native Double 8)
    (title : List UInt8) (n : Int32) (nprocs : ℕ) (args : ℕ → WriteArguments Double) (rank : ℕ) :
    csrioWrite int double title n nprocs args rank =
      (if rank = 0 then
        writeAt 0 (titlebuf title) ++
          writeAt 80 (int.encodeAll [n, exscan (fun rank => (args rank).myNz) nprocs]) else []) ++
      writeView (Datatype.struct 3
          [((args rank).rowEnd - (args rank).rowStart + 1).toNatClampNeg,
            (args rank).myNz.toNatClampNeg, (args rank).myNz.toNatClampNeg]
          (fileDisplacements n nprocs args rank) [Datatype.int, Datatype.int, Datatype.double])
        (int.encodeAll ((args rank).myIa.map (· + exscan (fun rank => (args rank).myNz) rank)) ++
          (int.encodeAll (args rank).myJa ++ double.encodeAll (args rank).myA)) :=
  rfl

/-- The positions of a view of three blocks. -/
theorem map_fst_writeView_struct (lens : ℕ × ℕ × ℕ) (disps : Int × Int × Int)
    {first second third : List UInt8} (sizedFirst : first.length = lens.1 * 4)
    (sizedSecond : second.length = lens.2.1 * 4) (sizedThird : third.length = lens.2.2 * 8) :
    (writeView (Datatype.struct 3 [lens.1, lens.2.1, lens.2.2] [disps.1, disps.2.1, disps.2.2]
        [Datatype.int, Datatype.int, Datatype.double]) (first ++ (second ++ third))).map Prod.fst =
      span disps.1 (lens.1 * 4) ++ (span disps.2.1 (lens.2.1 * 4) ++
        span disps.2.2 (lens.2.2 * 8)) := by
  rw [writeView_struct lens disps sizedFirst sizedSecond sizedThird, List.map_append,
    List.map_append, map_fst_writeAt, map_fst_writeAt, map_fst_writeAt, sizedFirst, sizedSecond,
    sizedThird]

namespace Partitions

variable {n nprocs : ℕ} {args : ℕ → WriteArguments Double} (partitions : Partitions n nprocs args)
include partitions

theorem myNz_eq {rank : ℕ} (bounded : rank < nprocs) :
    (args rank).myNz = Int32.ofNat (args rank).nonzeros :=
  (Int32.ofNat_toNatClampNeg _ (Int32.le_iff_toInt_le.mpr (partitions.nonneg rank bounded))).symm

/-- The exclusive and the total sums. -/
theorem exscan_eq {rank : ℕ} (bounded : rank ≤ nprocs) :
    exscan (fun rank => (args rank).myNz) rank = Int32.ofNat (nonzerosBefore args rank) := by
  induction rank with
  | zero => rfl
  | succ rank ih =>
    rw [exscan, nonzerosBefore, List.range_succ, List.map_append, List.map_append, List.sum_append,
      List.sum_append, ← exscan, ← nonzerosBefore, ih (Nat.le_of_succ_le bounded), Int32.ofNat_add]
    simp [partitions.myNz_eq bounded]

theorem nonzerosBefore_le {rank : ℕ} (bounded : rank ≤ nprocs) :
    nonzerosBefore args rank ≤ nonzerosBefore args nprocs := by
  obtain ⟨later, rfl⟩ := Nat.exists_eq_add_of_le bounded
  rw [nonzerosBefore, nonzerosBefore, List.range_add, List.map_append, List.sum_append]
  exact Nat.le_add_right _ _

/-- A rank's range of rows as numbers. -/
theorem rowStart_add_rows {rank : ℕ} (bounded : rank < nprocs) :
    (args rank).rowStart.toInt.toNat + (args rank).rows ≤ n ∧
      (((args rank).rowStart.toInt.toNat + (args rank).rows : ℕ) : Int) =
        (args rank).rowEnd.toInt + 1 := by
  have start := partitions.start rank bounded
  have ordered := partitions.ordered rank bounded
  have inside := partitions.inside rank bounded
  rw [WriteArguments.rows]
  omega

theorem rowStart_eq {rank : ℕ} (bounded : rank < nprocs) :
    (args rank).rowStart = Int32.ofNat (args rank).rowStart.toInt.toNat :=
  (Int32.ofNat_toNatClampNeg _ (Int32.le_iff_toInt_le.mpr (partitions.start rank bounded))).symm

/-- The number of rows in a rank's first block. -/
theorem blklen_eq {rank : ℕ} (bounded : rank < nprocs) :
    ((args rank).rowEnd - (args rank).rowStart + 1).toNatClampNeg = (args rank).rows := by
  have start := partitions.start rank bounded
  have ordered := partitions.ordered rank bounded
  have inside := partitions.inside rank bounded
  have fits := partitions.fits
  have difference : ((args rank).rowEnd - (args rank).rowStart).toInt =
      (args rank).rowEnd.toInt - (args rank).rowStart.toInt := by
    rw [Int32.toInt_sub, Int.bmod_eq_of_le (by omega) (by omega)]
  rw [Int32.toNatClampNeg, Int32.toInt_add, difference, Int32.toInt_one,
    Int.bmod_eq_of_le (by omega) (by omega), WriteArguments.rows]
  omega

/-- The displacements of a rank. -/
theorem fileDisplacements_eq {rank : ℕ} (bounded : rank < nprocs) :
    fileDisplacements (Int32.ofNat n) nprocs args rank =
      [((88 + (args rank).rowStart.toInt.toNat * 4 : ℕ) : Int),
        ((88 + n * 4 + nonzerosBefore args rank * 4 : ℕ) : Int),
        ((88 + n * 4 + nonzerosBefore args nprocs * 4 +
          nonzerosBefore args rank * 8 : ℕ) : Int)] := by
  have fits := partitions.fits
  have below := partitions.nonzerosBefore_le (Nat.le_of_lt bounded)
  have range := (partitions.rowStart_add_rows bounded).1
  rw [fileDisplacements, partitions.exscan_eq (Nat.le_of_lt bounded),
    partitions.exscan_eq (Nat.le_refl _), partitions.rowStart_eq bounded,
    myfilerowoffset_eq (by omega), myfilecoloffset_eq (by omega),
    myfiledataoffset_eq fits below]
  rw [← partitions.rowStart_eq bounded]

theorem fileDisplacements_sorted {rank : ℕ} (bounded : rank < nprocs) :
    (fileDisplacements (Int32.ofNat n) nprocs args rank).Pairwise (· ≤ ·) := by
  have below := partitions.nonzerosBefore_le (Nat.le_of_lt bounded)
  have range := (partitions.rowStart_add_rows bounded).1
  rw [partitions.fileDisplacements_eq bounded]
  simp only [List.pairwise_cons, List.mem_cons, List.not_mem_nil, or_false, forall_eq_or_imp,
    forall_eq, Nat.cast_le, false_implies, implies_true, List.Pairwise.nil, and_true]
  omega

/-- The positions that a rank writes to. -/
theorem map_fst_csrioWrite (int : Native Int32 4) (double : Native Double 8) (title : List UInt8)
    {rank : ℕ} (bounded : rank < nprocs) :
    (csrioWrite int double title (Int32.ofNat n) nprocs args rank).map Prod.fst =
      (if rank = 0 then span 0 88 else []) ++
        (span (88 + (((args rank).rowStart.toInt.toNat * 4 : ℕ) : Int)) ((args rank).rows * 4) ++
          (span (88 + ((n * 4 : ℕ) : Int) + ((nonzerosBefore args rank * 4 : ℕ) : Int))
              ((args rank).nonzeros * 4) ++
            span (88 + ((n * 4 : ℕ) : Int) + ((nonzerosBefore args nprocs * 4 : ℕ) : Int) +
                ((nonzerosBefore args rank * 8 : ℕ) : Int))
              ((args rank).nonzeros * 8))) := by
  have header : (if rank = 0 then
      writeAt 0 (titlebuf title) ++ writeAt 80 (int.encodeAll [Int32.ofNat n,
        exscan (fun rank => (args rank).myNz) nprocs]) else []).map Prod.fst =
      if rank = 0 then span 0 88 else [] := by
    split
    case isTrue =>
      rw [List.map_append, map_fst_writeAt, map_fst_writeAt, length_titlebuf,
        Native.length_encodeAll]
      exact (span_append 0 80 8).symm
    case isFalse => rfl
  rw [csrioWrite_displacements, List.map_append, header, partitions.fileDisplacements_eq bounded,
    partitions.blklen_eq bounded]
  refine congrArg (_ ++ ·) ((map_fst_writeView_struct
    ((args rank).rows, (args rank).nonzeros, (args rank).nonzeros) (_, _, _) ?_ ?_ ?_).trans ?_)
  · simp [partitions.lengthIa rank bounded]
  · simp [partitions.lengthJa rank bounded]
  · simp [partitions.lengthA rank bounded]
  · push_cast
    rfl

/-- The rows of the ranks are all rows, in some order. -/
theorem rows_perm : ((List.range nprocs).flatMap fun rank =>
    span (88 + (((args rank).rowStart.toInt.toNat * 4 : ℕ) : Int)) ((args rank).rows * 4)).Perm
      (span 88 (n * 4)) := by
  refine spans_scattered nprocs 88 (by decide) (fun rank => (args rank).rowStart.toInt.toNat)
    (fun rank => (args rank).rows) (fun rank bounded => (partitions.rowStart_add_rows bounded).1)
    fun row inside => ?_
  obtain ⟨rank, ⟨bounded, first, last⟩, unique⟩ := partitions.once row inside
  have range := (partitions.rowStart_add_rows bounded).2
  refine ⟨rank, ⟨bounded, by omega, by omega⟩, fun other ⟨bounded', own⟩ => unique other ?_⟩
  have start := partitions.start other bounded'
  have range' := (partitions.rowStart_add_rows bounded').2
  exact ⟨bounded', by omega, by omega⟩

omit partitions in
/-- The column indices or values of the ranks follow each other. -/
theorem nonzeros_consecutive (start : Int) (size : ℕ) :
    ((List.range nprocs).flatMap fun rank =>
        span (start + ((nonzerosBefore args rank * size : ℕ) : Int))
          ((args rank).nonzeros * size)) =
      span start (nonzerosBefore args nprocs * size) := by
  refine spans_consecutive nprocs start size (nonzerosBefore args) _ rfl fun rank => ?_
  rw [nonzerosBefore, List.range_succ, List.map_append, List.sum_append, ← nonzerosBefore]
  simp

/-- Together the ranks write to each position of the file once. -/
theorem positions_perm (int : Native Int32 4) (double : Native Double 8) (title : List UInt8) :
    ((collective nprocs (csrioWrite int double title (Int32.ofNat n) nprocs args)).map
      Prod.fst).Perm (span 0 (88 + n * 4 + nonzerosBefore args nprocs * 12)) := by
  have positions : (collective nprocs (csrioWrite int double title (Int32.ofNat n) nprocs
      args)).map Prod.fst = (List.range nprocs).flatMap fun rank =>
        (csrioWrite int double title (Int32.ofNat n) nprocs args rank).map Prod.fst :=
    List.map_flatMap
  have header : ((List.range nprocs).flatMap fun rank => if rank = 0 then span 0 88 else []) =
      span 0 88 :=
    flatMap_range_first partitions.ranks _
  have whole : span 0 (88 + n * 4 + nonzerosBefore args nprocs * 12) =
      span 0 88 ++ (span 88 (n * 4) ++
        (span (88 + ((n * 4 : ℕ) : Int)) (nonzerosBefore args nprocs * 4) ++
          span (88 + ((n * 4 : ℕ) : Int) + ((nonzerosBefore args nprocs * 4 : ℕ) : Int))
            (nonzerosBefore args nprocs * 8))) := by
    have total : 88 + n * 4 + nonzerosBefore args nprocs * 12 =
        88 + (n * 4 + (nonzerosBefore args nprocs * 4 + nonzerosBefore args nprocs * 8)) := by
      omega
    rw [total, span_append, span_append, span_append, Nat.cast_ofNat, zero_add]
  rw [positions, List.flatMap_congr fun rank listed =>
    partitions.map_fst_csrioWrite int double title (List.mem_range.mp listed), whole]
  refine (List.flatMap_append_perm _ _ _).symm.trans ?_
  rw [header]
  refine List.Perm.append_left _ ((List.flatMap_append_perm _ _ _).symm.trans ?_)
  refine partitions.rows_perm.append ((List.flatMap_append_perm _ _ _).symm.trans ?_)
  rw [nonzeros_consecutive, nonzeros_consecutive]

end Partitions

/-- The regions of the ranks and the header tile the file, and the displacements of every rank are
in order. -/
theorem file_regions_tile (int : Native Int32 4) (double : Native Double 8) (title : List UInt8)
    (n nprocs : ℕ) (args : ℕ → WriteArguments Double) (partitions : Partitions n nprocs args) :
    let written :=
      (collective nprocs (csrioWrite int double title (Int32.ofNat n) nprocs args)).map Prod.fst
    written.Nodup ∧
      (∀ byte, byte ∈ written ↔
        0 ≤ byte ∧ byte < ((88 + 4 * n + 12 * nonzerosBefore args nprocs : ℕ) : Int)) ∧
      ∀ rank < nprocs, (fileDisplacements (Int32.ofNat n) nprocs args rank).Pairwise (· ≤ ·) := by
  intro written
  have tiles := partitions.positions_perm int double title
  refine ⟨tiles.nodup_iff.mpr (nodup_span _ _), fun byte => ?_,
    fun rank bounded => partitions.fileDisplacements_sorted bounded⟩
  rw [tiles.mem_iff, mem_span]
  push_cast
  omega

/-- Rank 0 holds the second row, rank 1 the first, and rank 2 none. -/
def swappedArguments : ℕ → WriteArguments UInt64
  | 0 => ⟨1, 1, 1, [0], [0], [5]⟩
  | 1 => ⟨2, 0, 0, [0], [0, 1], [6, 7]⟩
  | _ => ⟨0, 2, 1, [], [], []⟩

theorem partitions_swapped : Partitions 2 3 swappedArguments where
  ranks := by decide
  start := by decide
  ordered := by decide
  inside := by decide
  once row inside := by
    have holder : ∀ row < 2, ∃ rank < 3, ((swappedArguments rank).rowStart.toInt ≤ (row : ℕ) ∧
        ((row : ℕ) : Int) ≤ (swappedArguments rank).rowEnd.toInt) ∧
        ∀ other < 3, (swappedArguments other).rowStart.toInt ≤ row →
          (row : Int) ≤ (swappedArguments other).rowEnd.toInt → other = rank := by
      decide
    obtain ⟨rank, bounded, own, unique⟩ := holder row inside
    exact ⟨rank, ⟨bounded, own⟩, fun other own => unique other own.1 own.2.1 own.2.2⟩
  nonneg := by decide
  lengthIa := by decide
  lengthJa := by decide
  lengthA := by decide
  fits := by decide

/-- The three ranks write 88 + 4 * 2 + 12 * 3 bytes. -/
theorem file_regions_tile_swapped :
    let written := (collective 3 (csrioWrite littleEndianInt littleEndianWord [] (Int32.ofNat 2) 3
      swappedArguments)).map Prod.fst
    written.Nodup ∧ ∀ byte, byte ∈ written ↔ 0 ≤ byte ∧ byte < ((132 : ℕ) : Int) :=
  have tile := file_regions_tile littleEndianInt littleEndianWord [] 2 3 swappedArguments
    partitions_swapped
  ⟨tile.1, tile.2.1⟩

end HandsOn.Sparse
