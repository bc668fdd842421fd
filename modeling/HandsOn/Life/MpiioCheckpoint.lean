import HandsOn.Life.Checkpoint

/-!
# The MPI-IO checkpoint

`MLIFEIO_Checkpoint` of `mlife-io-mpiio.c`. Rank 0 describes the header and its rows by
one structure type of four members, which it creates with a count of three: the rows of
rank 0 never reach the file.
-/

namespace HandsOn.Life.Mpiio

open HandsOn.Mpi

/-- A rank's memory, and where its arguments are. -/
structure Arguments where
  memory : Memory
  matrix : Int
  rowsP : Int
  colsP : Int
  iterP : Int

/-- `MLIFEIO_Type_create_hdr_rowblk`; `cols` is `*cols_p`. -/
def typeCreateHdrRowblk (args : Arguments) (myrows cols : ℕ) : Datatype :=
  let lens := [1, 1, 1, 1]
  let rowblk := typeCreateRowblk args.matrix myrows cols
  let mpiBottom := 0
  let disps := [args.rowsP, args.colsP, args.iterP, mpiBottom]
  let types := [Datatype.int, Datatype.int, Datatype.int, rowblk]
  Datatype.struct 3 lens disps types

/-- `((myoffset * cols) + 3) * sizeof(int)` -/
def myfileoffset (myoffset cols : Int32) : Int := byteOffset (myoffset * cols + 3) 4

/-- The bytes a rank writes in `MLIFEIO_Checkpoint`. -/
def checkpoint (rows cols nprocs : ℕ) (args : ℕ → Arguments) (rank : ℕ) : List (Int × UInt8) :=
  let myrows := myrows rows rank nprocs
  let myoffset := myrowoffset rows rank nprocs
  let memory := (args rank).memory
  if rank = 0 then
    writeAt 0 (memory.pack (typeCreateHdrRowblk (args rank) myrows cols))
  else
    writeAt (myfileoffset (Int32.ofNat myoffset) (Int32.ofNat cols))
      (memory.pack (typeCreateRowblk (args rank).matrix myrows cols))

/-- The ranks hold the grid in the interiors of their matrices, and the numbers that
describe it. -/
structure Distributed (int : Native Int32 4) (rows cols nprocs : ℕ) (iter : Int32)
    (grid : ℕ → ℕ → Int32) (args : ℕ → Arguments) : Prop where
  rowsArg : ∀ rank < nprocs, (args rank).memory.load int (args rank).rowsP = Int32.ofNat rows
  colsArg : ∀ rank < nprocs, (args rank).memory.load int (args rank).colsP = Int32.ofNat cols
  iterArg : ∀ rank < nprocs, (args rank).memory.load int (args rank).iterP = iter
  block : ∀ rank < nprocs,
    HoldsBlock int rows cols nprocs grid rank (args rank).memory (args rank).matrix

/-- The header: the size of the matrix and the number of the iteration. -/
def header (rows cols : ℕ) (iter : Int32) : List Int32 := [Int32.ofNat rows, Int32.ofNat cols, iter]

/-- The documented file: the header and the matrix in matrix order. -/
def document (int : Native Int32 4) (rows cols : ℕ) (iter : Int32) (grid : ℕ → ℕ → Int32) :
    List UInt8 :=
  int.encodeAll (header rows cols iter ++ rowMajor grid cols 0 rows)

/-- The checkpoint writes each byte of the documented file, and writes it once. -/
def WritesDocument (int : Native Int32 4) (rows cols nprocs : ℕ) (iter : Int32)
    (grid : ℕ → ℕ → Int32) (args : ℕ → Arguments) : Prop :=
  ∀ (position : ℕ) (byte : UInt8), (document int rows cols iter grid)[position]? = some byte →
    landed (collective nprocs (checkpoint rows cols nprocs args)) position = [byte]

variable {int : Native Int32 4} {rows cols nprocs : ℕ} {iter : Int32} {grid : ℕ → ℕ → Int32}
  {args : ℕ → Arguments}

/-- The multiplication and the addition wrap around. -/
theorem myfileoffset_ofNat (myoffset cols : ℕ) :
    myfileoffset (Int32.ofNat myoffset) (Int32.ofNat cols) =
      (Int32.ofNat (myoffset * cols + 3)).toInt * 4 := by
  have same : Int32.ofNat myoffset * Int32.ofNat cols + 3 = Int32.ofNat (myoffset * cols + 3) := by
    rw [Int32.ofNat_add, Int32.ofNat_mul]
    rfl
  rw [myfileoffset, byteOffset_eq _ (by decide), same]
  rfl

theorem myfileoffset_eq {myoffset cols : ℕ} (fits : myoffset * cols + 3 < 2 ^ 31) :
    myfileoffset (Int32.ofNat myoffset) (Int32.ofNat cols) = ((myoffset * cols + 3) * 4 : ℕ) := by
  rw [myfileoffset_ofNat, Int32.toInt_ofNat_of_lt fits]
  push_cast
  rfl

/-- Rank 0 packs the header and nothing else. -/
theorem pack_hdr (distributed : Distributed int rows cols nprocs iter grid args)
    (positive : 0 < nprocs) (myrows : ℕ) :
    (args 0).memory.pack (typeCreateHdrRowblk (args 0) myrows cols) =
      int.encodeAll (header rows cols iter) := by
  refine (args 0).memory.pack_eq_encodeAll int
    [(args 0).rowsP, (args 0).colsP, (args 0).iterP] ?_ ?_
  · simp [typeCreateHdrRowblk, Datatype.struct, Datatype.typemap_concat, Datatype.shift]
  · rw [List.map_cons, List.map_cons, List.map_cons, distributed.rowsArg 0 positive,
      distributed.colsArg 0 positive, distributed.iterArg 0 positive]
    rfl

/-- Every rank but the first writes its rows in matrix order at their place. -/
theorem checkpoint_later (distributed : Distributed int rows cols nprocs iter grid args)
    (fits : rows * cols + 3 < 2 ^ 31) {rank : ℕ} (later : rank ≠ 0) (inside : rank < nprocs) :
    checkpoint rows cols nprocs args rank =
      writeAt ((myrowoffset rows rank nprocs * cols + 3) * 4 : ℕ)
        (int.encodeAll (rowMajor grid cols (myrowoffset rows rank nprocs)
          (myrows rows rank nprocs))) := by
  have within := myrowoffset_mono rows nprocs inside.le
  rw [myrowoffset_nprocs rows (Nat.zero_lt_of_lt inside)] at within
  rw [checkpoint, if_neg later, (distributed.block rank inside).pack, myfileoffset_eq
    ((Nat.add_le_add_right (Nat.mul_le_mul_right cols within) 3).trans_lt fits)]

/-- The checkpoint writes the header, and the rows of every rank but the first in
matrix order at their places. -/
theorem collective_checkpoint (distributed : Distributed int rows cols nprocs iter grid args)
    (positive : 0 < nprocs) (fits : rows * cols + 3 < 2 ^ 31) :
    let first := myrows rows 0 nprocs
    collective nprocs (checkpoint rows cols nprocs args) =
      writeAt 0 (int.encodeAll (header rows cols iter)) ++
        writeAt ((first * cols + 3) * 4 : ℕ)
          (int.encodeAll (rowMajor grid cols first (rows - first))) := by
  intro first
  obtain ⟨others, rfl⟩ := Nat.exists_eq_succ_of_ne_zero positive.ne'
  have firstOffset : myrowoffset rows 1 (others + 1) = first := by
    rw [myrowoffset_succ, myrowoffset_zero, Nat.zero_add]
  have rest : ∀ rank ∈ List.range others, checkpoint rows cols (others + 1) args (rank + 1) = _ :=
    fun rank inside => checkpoint_later distributed fits (Nat.succ_ne_zero rank)
      (Nat.succ_lt_succ (List.mem_range.mp inside))
  rw [collective, List.range_succ_eq_map, List.flatMap_cons, List.flatMap_map, checkpoint,
    if_pos rfl, pack_hdr distributed positive]
  refine congrArg (writeAt 0 _ ++ ·) ?_
  rw [List.flatMap_congr rest]
  refine (collective_writeAt others
    (fun rank => ((myrowoffset rows (rank + 1) (others + 1) * cols + 3) * 4 : ℕ))
    (fun rank => int.encodeAll (rowMajor grid cols (myrowoffset rows (rank + 1) (others + 1))
      (myrows rows (rank + 1) (others + 1)))) ?_).trans ?_
  · intro rank
    rw [Native.length_encodeAll, length_rowMajor, myrowoffset_succ rows (rank + 1)]
    push_cast
    ring
  · have blocks := rowMajor_flatMap grid rows cols (others + 1) 1 others
    rw [Nat.add_comm 1 others, firstOffset, myrowoffset_nprocs rows positive] at blocks
    rw [Nat.zero_add, firstOffset, ← blocks, Native.encodeAll, List.flatMap_assoc]
    simp only [Nat.add_comm 1]
    rfl

/-- Nothing reaches the part of the file where the rows of rank 0 belong. -/
theorem landed_first_block (distributed : Distributed int rows cols nprocs iter grid args)
    (positive : 0 < nprocs) (fits : rows * cols + 3 < 2 ^ 31) {position : ℕ}
    (start : 12 ≤ position) (stop : position < (myrows rows 0 nprocs * cols + 3) * 4) :
    landed (collective nprocs (checkpoint rows cols nprocs args)) position = [] := by
  have afterHeader := landed_writeAt 0 (int.encodeAll (header rows cols iter)) position
  rw [Int.zero_add, List.getElem?_eq_none (by simpa [header] using start)] at afterHeader
  rw [collective_checkpoint distributed positive fits, landed_append, afterHeader,
    landed_writeAt_before _ (Int.ofNat_lt.mpr stop)]
  rfl

/-- Rank 0 owns a row. -/
theorem myrows_zero_pos (positive : 0 < nprocs) (someRow : 1 ≤ rows) :
    1 ≤ myrows rows 0 nprocs := by
  by_contra! none
  have past := myrowoffset_of_empty positive (Nat.lt_one_iff.mp none)
  rw [myrowoffset_zero] at past
  omega

/-- No run of the checkpoint writes the documented file. -/
theorem checkpoint_not_document (int : Native Int32 4) (rows cols nprocs : ℕ) (iter : Int32)
    (grid : ℕ → ℕ → Int32) (args : ℕ → Arguments) (someRow : 1 ≤ rows) (someCol : 1 ≤ cols)
    (positive : 1 ≤ nprocs) (fits : rows * cols + 3 < 2 ^ 31)
    (distributed : Distributed int rows cols nprocs iter grid args) :
    ¬ WritesDocument int rows cols nprocs iter grid args := by
  intro writes
  have cells : 1 ≤ rows * cols := Nat.mul_pos someRow someCol
  have mine : 1 ≤ myrows rows 0 nprocs * cols :=
    Nat.mul_pos (myrows_zero_pos positive someRow) someCol
  have inside : 12 < (document int rows cols iter grid).length := by
    simp only [document, Native.length_encodeAll, List.length_append, length_rowMajor, header,
      List.length_cons, List.length_nil]
    omega
  have written := writes 12 _ (List.getElem?_eq_getElem inside)
  rw [landed_first_block distributed positive fits (Nat.le_refl 12) (by omega)] at written
  exact List.cons_ne_nil _ _ written.symm

/-! Three rows of two cells on two processes, dead and alive in turn. -/

private def checkered (row col : ℕ) : Int32 := Int32.ofNat ((row + col) % 2)

private def checkeredArguments (rank : ℕ) : Arguments where
  memory := .image littleEndianInt fun
    | 0 => 3
    | 1 => 2
    | 2 => 7
    | index + 3 => checkered (myrowoffset 3 rank 2 + index / 4 - 1) (index % 4 - 1)
  matrix := 12
  rowsP := 0
  colsP := 4
  iterP := 8

private theorem checkered_distributed :
    Distributed littleEndianInt 3 2 2 7 checkered checkeredArguments where
  rowsArg := by decide
  colsArg := by decide
  iterArg := by decide
  block := by
    unfold HoldsBlock
    decide

theorem checkpoint_not_document_checkered :
    ¬ WritesDocument littleEndianInt 3 2 2 7 checkered checkeredArguments :=
  checkpoint_not_document littleEndianInt 3 2 2 7 checkered checkeredArguments (by decide)
    (by decide) (by decide) (by decide) checkered_distributed

/-! A grid of one dead cell on one process. -/

private def lone : Arguments where
  memory address := if address = 0 ∨ address = 4 then 1 else 0
  matrix := 12
  rowsP := 0
  colsP := 4
  iterP := 8

private def loneArguments (_ : ℕ) : Arguments := lone

private def loneGrid (_ _ : ℕ) : Int32 := 0

private theorem lone_one : lone.memory.load littleEndianInt 0 = 1 ∧
    lone.memory.load littleEndianInt 4 = 1 := by decide

private theorem lone_zero : lone.memory.load littleEndianInt 8 = 0 ∧
    lone.memory.load littleEndianInt (address 12 1 1 1) = 0 := by decide

private theorem lone_distributed :
    Distributed littleEndianInt 1 1 1 0 loneGrid loneArguments where
  rowsArg _ _ := lone_one.1
  colsArg _ _ := lone_one.2
  iterArg _ _ := lone_zero.1
  block rank _ i inRows j inCols := by
    have oneRow : myrows 1 rank 1 = 1 := by simp [myrows]
    obtain rfl : i = 0 := Nat.lt_one_iff.mp (oneRow ▸ inRows)
    obtain rfl : j = 0 := Nat.lt_one_iff.mp inCols
    exact lone_zero.2

/-- Byte 12 of the documented file, of the only cell, is never written. -/
theorem lone_cell_unwritten :
    Distributed littleEndianInt 1 1 1 0 loneGrid loneArguments ∧
      (document littleEndianInt 1 1 0 loneGrid)[12]? = some 0 ∧
      landed (collective 1 (checkpoint 1 1 1 loneArguments)) 12 = [] ∧
      ¬ WritesDocument littleEndianInt 1 1 1 0 loneGrid loneArguments := by
  have listed : (document littleEndianInt 1 1 0 loneGrid)[12]? = some 0 := by decide
  have unwritten : landed (collective 1 (checkpoint 1 1 1 loneArguments)) 12 = [] := by decide
  refine ⟨lone_distributed, listed, unwritten, fun writes => ?_⟩
  exact List.cons_ne_nil _ _ ((writes 12 0 listed).symm.trans unwritten)

end HandsOn.Life.Mpiio
