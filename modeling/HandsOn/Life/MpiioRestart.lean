import HandsOn.Life.MpiioOffset
import HandsOn.Mpi.Scatter

/-!
# The MPI-IO restart

`MLIFEIO_Restart` of `mlife-io-mpiio.c`. Every rank reads the header and, where it describes
the matrix, its rows into the interior of its matrix. The rows are those that
`MLIFE_myrowoffset` gives the rank now, whatever the number of processes was that wrote them.
-/

namespace HandsOn.Life.Mpiio

open HandsOn.Mpi

/-- `buf`: rows, cols, iteration. -/
structure Buf where
  rows : Int32
  cols : Int32
  iter : Int32

/-- `MPI_SUCCESS` -/
def mpiSuccess : ℕ := 0

/-- `MPI_ERR_OTHER`: like the code of every error, not that of success. -/
def mpiErrOther : ℕ := 15

/-- The codes that the calls of a rank return, if it comes to them. -/
structure Codes where
  fileOpen : ℕ
  readHeader : ℕ
  readBody : ℕ
  close : ℕ
deriving DecidableEq

/-- All calls succeed. -/
def Codes.succeed : Codes where
  fileOpen := mpiSuccess
  readHeader := mpiSuccess
  readBody := mpiSuccess
  close := mpiSuccess

/-- A call fails whose code is looked at: that of the read of the body is not. -/
def Codes.Noticed (codes : Codes) : Prop :=
  codes.fileOpen ≠ mpiSuccess ∨ codes.readHeader ≠ mpiSuccess ∨ codes.close ≠ mpiSuccess

instance (codes : Codes) : Decidable codes.Noticed := inferInstanceAs (Decidable (_ ∨ _))

/-- The memory of a rank and where its matrix is, what is in `buf` before it is read, the codes of
its calls, and which bytes of its memory a read of the body that fails has reached. -/
structure RestartArguments where
  memory : Memory
  matrix : Int
  buf : Buf
  codes : Codes
  reached : Int → Bool

/-- The code that a rank returns, and the bytes that it has read into its matrix. -/
structure Restarted where
  code : ℕ
  moved : List (Int × UInt8)

/-- `MPI_File_read_at_all(fh, 0, buf, 3, MPI_INT, MPI_STATUS_IGNORE)` -/
def readBuf (int : Native Int32 4) (file : File) (buf : Buf) : Buf where
  rows := readElement int file 0 buf.rows
  cols := readElement int file 4 buf.cols
  iter := readElement int file 8 buf.iter

/-- `gErr`: the maximum of the ranks' codes. -/
def gErr (nprocs : ℕ) (args : ℕ → RestartArguments) : ℕ :=
  ((List.range nprocs).map fun rank => (args rank).codes.readHeader).foldr Nat.max mpiSuccess

/-- `MPI_File_read_at_all(fh, myfileoffset, MPI_BOTTOM, 1, type, MPI_STATUS_IGNORE)` -/
def readBody (file : File) (myfileoffset : Int) (type : Datatype) (args : RestartArguments) :
    List (Int × UInt8) :=
  let moved := readScattered file myfileoffset type
  if args.codes.readBody = mpiSuccess then moved else moved.filter fun byte => args.reached byte.1

/-- `MLIFEIO_Restart` on a rank. -/
def restart (int : Native Int32 4) (file : File) (rows cols nprocs : ℕ)
    (args : ℕ → RestartArguments) (rank : ℕ) : Restarted :=
  let myrows := myrows rows rank nprocs
  let myoffset := myrowoffset rows rank nprocs
  let codes := (args rank).codes
  if codes.fileOpen ≠ mpiSuccess then
    { code := codes.fileOpen, moved := [] }
  else
    let buf := readBuf int file (args rank).buf
    if gErr nprocs args ≠ 0 ∨ buf.rows ≠ Int32.ofNat rows ∨ buf.cols ≠ Int32.ofNat cols then
      { code := mpiErrOther, moved := [] }
    else
      let type := typeCreateRowblk (args rank).matrix myrows cols
      let myfileoffset := myfileoffset (Int32.ofNat myoffset) (Int32.ofNat cols)
      -- The code of this read is replaced by that of the close.
      { code := codes.close, moved := readBody file myfileoffset type (args rank) }

/-- The memory of a rank after the restart. -/
def restartedMemory (int : Native Int32 4) (file : File) (rows cols nprocs : ℕ)
    (args : ℕ → RestartArguments) (rank : ℕ) : Memory :=
  (args rank).memory.store (restart int file rows cols nprocs args rank).moved

/-- A complete checkpoint file: the header and the cells. -/
def checkpointFile (int : Native Int32 4) (rows cols iter : Int32) (cells : List Int32) : File :=
  fileOf (int.encodeAll (rows :: cols :: iter :: cells))

/-- The interior of a matrix, row by row. -/
def interior (int : Native Int32 4) (memory : Memory) (matrix : Int) (myrows cols : ℕ) :
    List Int32 :=
  ((List.range myrows).flatMap fun i => (List.range cols).map fun j =>
    address matrix cols (i + 1) (j + 1)).map (memory.load int)

/-- `matrix[i][j]` is in the rows or columns around the interior. -/
def Halo (myrows cols i j : ℕ) : Prop :=
  i ≤ myrows + 1 ∧ j ≤ cols + 1 ∧ ¬ (1 ≤ i ∧ i ≤ myrows ∧ 1 ≤ j ∧ j ≤ cols)

/-- The ranks succeed and have the cells of the file in their interiors, in rank order. -/
structure Restored (int : Native Int32 4) (file : File) (rows cols nprocs : ℕ)
    (args : ℕ → RestartArguments) (cells : List Int32) : Prop where
  success : ∀ rank < nprocs, (restart int file rows cols nprocs args rank).code = mpiSuccess
  interiors : ((List.range nprocs).flatMap fun rank =>
    interior int (restartedMemory int file rows cols nprocs args rank) (args rank).matrix
      (myrows rows rank nprocs) cols) = cells
  halo : ∀ rank < nprocs, ∀ i j, Halo (myrows rows rank nprocs) cols i j →
    (restartedMemory int file rows cols nprocs args rank).load int
        (address (args rank).matrix cols i j) =
      (args rank).memory.load int (address (args rank).matrix cols i j)

/-- The ranks return the same error and have their memory as it was. -/
structure Refused (int : Native Int32 4) (file : File) (rows cols nprocs : ℕ)
    (args : ℕ → RestartArguments) : Prop where
  error : ∀ rank < nprocs, (restart int file rows cols nprocs args rank).code = mpiErrOther
  unchanged : ∀ rank < nprocs,
    restartedMemory int file rows cols nprocs args rank = (args rank).memory

variable {int : Native Int32 4} {file : File} {rows cols nprocs : ℕ}
  {args : ℕ → RestartArguments}

/-! ### The row block in memory -/

/-- The cells of a row block lie one after the other, with gaps for the halo. -/
theorem rowblk_apart (matrix : Int) (myrows cols : ℕ) :
    ((List.range myrows).flatMap fun i => (List.range cols).map fun j =>
      address matrix cols (i + 1) (j + 1)).Pairwise fun first second : Int =>
        first + (4 : ℕ) ≤ second := by
  refine List.pairwise_flatMap.mpr ⟨fun i _ => ?_, ?_⟩
  · refine List.pairwise_map.mpr (List.pairwise_lt_range.imp fun {j j'} before => ?_)
    simp only [address, offset]
    omega
  · refine List.pairwise_lt_range.imp fun {i i'} before first inRow second inRow' => ?_
    obtain ⟨j, inCols, rfl⟩ := List.mem_map.mp inRow
    obtain ⟨j', _, rfl⟩ := List.mem_map.mp inRow'
    have step : (i + 1 + 1) * (cols + 2) ≤ (i' + 1) * (cols + 2) :=
      Nat.mul_le_mul_right _ (by omega)
    have := List.mem_range.mp inCols
    rw [Nat.succ_mul] at step
    simp only [address, offset]
    omega

theorem rowblk_nodup (matrix : Int) (myrows cols : ℕ) :
    (typeCreateRowblk matrix myrows cols).positions.Nodup :=
  Datatype.positions_nodup (typemap_rowblk matrix myrows cols) (rowblk_apart matrix myrows cols)

/-- The bytes of the cells, by their place in the row block. -/
theorem rowblk_getElem? (matrix : Int) {myrows cols i j byte : ℕ} (inRows : i < myrows)
    (inCols : j < cols) (inside : byte < 4) :
    (typeCreateRowblk matrix myrows cols).positions[(i * cols + j) * 4 + byte]? =
      some (address matrix cols (i + 1) (j + 1) + byte) :=
  Datatype.positions_getElem? (typemap_rowblk matrix myrows cols)
    (flatMap_map_getElem? _ inRows inCols) inside

theorem address_inj {matrix : Int} {cols i j i' j' : ℕ} (inRow : j < cols + 2)
    (inRow' : j' < cols + 2) (same : address matrix cols i j = address matrix cols i' j') :
    i = i' ∧ j = j' := by
  have offsets : offset cols i j = offset cols i' j' := by
    unfold address at same
    omega
  constructor
  · rw [← offset_div i inRow, offsets, offset_div i' inRow']
  · rw [← offset_mod i inRow, offsets, offset_mod i' inRow']

/-- The halo is not in the row block. -/
theorem halo_not_mem (matrix : Int) {myrows cols i j : ℕ} (halo : Halo myrows cols i j) :
    ∀ byte < 4, address matrix cols i j + (byte : ℕ) ∉
      (typeCreateRowblk matrix myrows cols).positions := by
  obtain ⟨_, inRow, outside⟩ := halo
  intro byte inside listed
  obtain ⟨place, isCell, start, stop⟩ :=
    (Datatype.mem_positions (typemap_rowblk matrix myrows cols)).mp listed
  obtain ⟨i', inRows, cell⟩ := List.mem_flatMap.mp isCell
  obtain ⟨j', inCols, rfl⟩ := List.mem_map.mp cell
  rw [List.mem_range] at inRows inCols
  have same : address matrix cols i j = address matrix cols (i' + 1) (j' + 1) := by
    unfold address at start stop ⊢
    omega
  obtain ⟨rfl, rfl⟩ := address_inj (by omega) (by omega) same
  exact outside ⟨by omega, by omega, by omega, by omega⟩

/-! ### The two outcomes -/

/-- The maximum is that of success exactly if every code is. -/
theorem foldr_max_eq_zero_iff (codes : List ℕ) :
    codes.foldr Nat.max mpiSuccess = 0 ↔ ∀ code ∈ codes, code = 0 := by
  induction codes with
  | nil => exact iff_of_true rfl fun _ listed => absurd listed List.not_mem_nil
  | cons code codes ih => rw [List.foldr_cons, List.forall_mem_cons, ← ih, Nat.max_eq_zero_iff]

theorem gErr_eq_zero_iff :
    gErr nprocs args = 0 ↔ ∀ rank < nprocs, (args rank).codes.readHeader = 0 := by
  rw [gErr, foldr_max_eq_zero_iff, List.forall_mem_map]
  simp only [List.mem_range]

/-- Where no call fails whose code is looked at, the header decides. -/
theorem restart_of_unnoticed (unnoticed : ∀ rank < nprocs, ¬ (args rank).codes.Noticed)
    {rank : ℕ} (inside : rank < nprocs) :
    restart int file rows cols nprocs args rank =
      if (readBuf int file (args rank).buf).rows = Int32.ofNat rows ∧
          (readBuf int file (args rank).buf).cols = Int32.ofNat cols then
        { code := mpiSuccess
          moved := readBody file
            (myfileoffset (Int32.ofNat (myrowoffset rows rank nprocs)) (Int32.ofNat cols))
            (typeCreateRowblk (args rank).matrix (myrows rows rank nprocs) cols) (args rank) }
      else { code := mpiErrOther, moved := [] } := by
  have noErr : gErr nprocs args = 0 := gErr_eq_zero_iff.mpr fun rank inside =>
    not_not.mp fun fails => unnoticed rank inside (.inr (.inl fails))
  have isOpen : (args rank).codes.fileOpen = mpiSuccess :=
    not_not.mp fun fails => unnoticed rank inside (.inl fails)
  have closed : (args rank).codes.close = mpiSuccess :=
    not_not.mp fun fails => unnoticed rank inside (.inr (.inr fails))
  simp only [restart, isOpen, closed, noErr, ne_eq, not_true_eq_false, if_false, false_or,
    ← not_and_or, ite_not]

/-- Where the calls succeed, the body is read, too. -/
theorem restart_of_succeed (succeed : ∀ rank < nprocs, (args rank).codes = .succeed) {rank : ℕ}
    (inside : rank < nprocs) :
    restart int file rows cols nprocs args rank =
      if (readBuf int file (args rank).buf).rows = Int32.ofNat rows ∧
          (readBuf int file (args rank).buf).cols = Int32.ofNat cols then
        { code := mpiSuccess
          moved := readScattered file
            (myfileoffset (Int32.ofNat (myrowoffset rows rank nprocs)) (Int32.ofNat cols))
            (typeCreateRowblk (args rank).matrix (myrows rows rank nprocs) cols) }
      else { code := mpiErrOther, moved := [] } := by
  have unnoticed : ∀ rank < nprocs, ¬ (args rank).codes.Noticed := by
    intro rank inside
    rw [succeed rank inside]
    decide
  have body : (args rank).codes.readBody = mpiSuccess := by rw [succeed rank inside]; rfl
  rw [restart_of_unnoticed unnoticed inside, readBody, if_pos body]

/-- The header of a complete file replaces what was in `buf`. -/
theorem readBuf_checkpointFile (int : Native Int32 4) (rows cols iter : Int32)
    (cells : List Int32) (buf : Buf) :
    (readBuf int (checkpointFile int rows cols iter cells) buf).rows = rows ∧
      (readBuf int (checkpointFile int rows cols iter cells) buf).cols = cols := by
  have holds : Has (checkpointFile int rows cols iter cells) 0
      (int.encode rows ++ (int.encode cols ++ int.encodeAll (iter :: cells))) :=
    has_fileOf.mpr (List.prefix_refl _)
  obtain ⟨first, rest⟩ := has_append.mp holds
  obtain ⟨second, _⟩ := has_append.mp rest
  rw [int.length_encode] at second
  exact ⟨readElement_of_has first _, readElement_of_has second _⟩

/-- The cells of a list as a grid. -/
def gridOf (cols : ℕ) (cells : List Int32) (row col : ℕ) : Int32 := cells.getD (row * cols + col) 0

theorem rowMajor_gridOf {cells : List Int32} (sized : cells.length = rows * cols) :
    rowMajor (gridOf cols cells) cols 0 rows = cells := by
  apply List.ext_getElem
  · rw [length_rowMajor, sized]
  · intro index inside inside'
    have positive : 0 < cols := Nat.pos_of_mul_pos_left (sized ▸ Nat.zero_lt_of_lt inside')
    have split : index / cols * cols + index % cols = index := Nat.div_add_mod' index cols
    have entry := rowMajor_getElem? (gridOf cols cells) 0
      (Nat.div_lt_of_lt_mul (by rwa [Nat.mul_comm, ← sized]) : index / cols < rows)
      (Nat.mod_lt index positive)
    rw [split, Nat.zero_add, gridOf, split, List.getElem?_eq_getElem inside,
      List.getD_eq_getElem?_getD, List.getElem?_eq_getElem inside', Option.getD_some] at entry
    exact Option.some.inj entry

/-- The rows of a rank are in the file behind the header and the rows before them. -/
theorem has_block {cells : List Int32} (sized : cells.length = rows * cols)
    (holds : Has file 12 (int.encodeAll cells)) {rank : ℕ} (inside : rank < nprocs) :
    Has file ((myrowoffset rows rank nprocs * cols + 3) * 4 : ℕ)
      (int.encodeAll (rowMajor (gridOf cols cells) cols (myrowoffset rows rank nprocs)
        (myrows rows rank nprocs))) := by
  obtain ⟨later, split⟩ := Nat.exists_eq_add_of_le (myrowoffset_add_le rows inside)
  have whole := rowMajor_gridOf sized
  rw [split, rowMajor_append, rowMajor_append, Nat.zero_add] at whole
  rw [← whole, Native.encodeAll_append, Native.encodeAll_append] at holds
  have mine := (has_append.mp (has_append.mp holds).1).2
  rw [Native.length_encodeAll, length_rowMajor] at mine
  rwa [show ((myrowoffset rows rank nprocs * cols + 3) * 4 : ℕ) =
    (12 : Int) + (myrowoffset rows rank nprocs * cols * 4 : ℕ) by push_cast; ring]

/-- The cells of a complete file are behind its header. -/
theorem has_cells (rows cols iter : Int32) (cells : List Int32) :
    Has (checkpointFile int rows cols iter cells) 12 (int.encodeAll cells) := by
  have holds : Has (checkpointFile int rows cols iter cells) 0
      (int.encodeAll ([rows, cols, iter] ++ cells)) := has_fileOf.mpr (List.prefix_refl _)
  rw [Native.encodeAll_append] at holds
  have body := (has_append.mp holds).2
  rwa [Native.length_encodeAll, zero_add] at body

/-- A rank that finds its matrix described by the header reads its rows. -/
theorem holdsBlock_restarted (fits : rows * cols + 3 < 2 ^ 31)
    (iter : Int32) {cells : List Int32} (sized : cells.length = rows * cols)
    (succeed : ∀ rank < nprocs, (args rank).codes = .succeed) {rank : ℕ} (inside : rank < nprocs) :
    HoldsBlock int rows cols nprocs (gridOf cols cells) rank
      (restartedMemory int
        (checkpointFile int (Int32.ofNat rows) (Int32.ofNat cols) iter cells) rows cols nprocs args
        rank) (args rank).matrix := by
  intro i inRows j inCols
  have within : myrowoffset rows rank nprocs * cols + 3 < 2 ^ 31 := by
    have := Nat.mul_le_mul_right cols
      ((Nat.le_add_right _ _).trans (myrowoffset_add_le rows inside))
    omega
  have header := readBuf_checkpointFile int (Int32.ofNat rows) (Int32.ofNat cols) iter cells
    (args rank).buf
  rw [restartedMemory, restart_of_succeed succeed inside, if_pos header, myfileoffset_eq within]
  exact Memory.load_store_readScattered (typemap_rowblk _ _ _) (rowblk_nodup _ _ _)
    (Int.natCast_nonneg _) (has_block sized (has_cells _ _ _ _) inside)
    (flatMap_map_getElem? _ inRows inCols) (rowMajor_getElem? _ _ inRows inCols)

/-- A complete checkpoint is restored, by any number of processes, where its header describes the
matrix, and refused otherwise. -/
theorem restart_complete (int : Native Int32 4) (rows cols nprocs : ℕ) (someRow : 1 ≤ rows)
    (someCol : 1 ≤ cols) (fits : rows * cols + 3 < 2 ^ 31) (positive : 1 ≤ nprocs)
    (R C iter : Int32) (cells : List Int32) (whole : (cells.length : Int) = R.toInt * C.toInt)
    (args : ℕ → RestartArguments) (succeed : ∀ rank < nprocs, (args rank).codes = .succeed) :
    (R = Int32.ofNat rows ∧ C = Int32.ofNat cols →
      Restored int (checkpointFile int R C iter cells) rows cols nprocs args cells) ∧
    (¬ (R = Int32.ofNat rows ∧ C = Int32.ofNat cols) →
      Refused int (checkpointFile int R C iter cells) rows cols nprocs args) := by
  constructor
  · rintro ⟨rfl, rfl⟩
    have rowsFit : rows < 2 ^ 31 := by
      have := Nat.le_mul_of_pos_right rows someCol
      omega
    have colsFit : cols < 2 ^ 31 := by
      have := Nat.le_mul_of_pos_left cols someRow
      omega
    have sized : cells.length = rows * cols := by
      rw [Int32.toInt_ofNat_of_lt rowsFit, Int32.toInt_ofNat_of_lt colsFit] at whole
      exact_mod_cast whole
    refine ⟨fun rank inside => ?_, ?_, fun rank inside i j halo => ?_⟩
    · rw [restart_of_succeed succeed inside, if_pos (readBuf_checkpointFile _ _ _ _ _ _)]
    · have block : ∀ rank ∈ List.range nprocs, interior int _ (args rank).matrix
          (myrows rows rank nprocs) cols = _ := fun rank listed =>
        (holdsBlock_restarted fits iter sized succeed (List.mem_range.mp listed)).places
      have blocks := rowMajor_flatMap (gridOf cols cells) rows cols nprocs 0 nprocs
      simp only [Nat.zero_add] at blocks
      rw [List.flatMap_congr block, blocks, myrowoffset_zero, myrowoffset_nprocs rows positive,
        Nat.sub_zero, rowMajor_gridOf sized]
    · rw [restartedMemory, restart_of_succeed succeed inside,
        if_pos (readBuf_checkpointFile _ _ _ _ _ _)]
      exact Memory.load_store_readScattered_other (halo_not_mem _ halo)
  · intro different
    have refused : ∀ rank < nprocs, restart int (checkpointFile int R C iter cells) rows cols
        nprocs args rank = { code := mpiErrOther, moved := [] } := by
      intro rank inside
      obtain ⟨sameRows, sameCols⟩ :=
        readBuf_checkpointFile int R C iter cells (args rank).buf
      rw [restart_of_succeed succeed inside, sameRows, sameCols, if_neg different]
    refine ⟨fun rank inside => by rw [refused rank inside], fun rank inside => ?_⟩
    rw [restartedMemory, refused rank inside, Memory.store_nil]

private def blankArguments (_ : ℕ) : RestartArguments where
  memory _ := 255
  matrix := 0
  buf := { rows := 7, cols := 7, iter := 7 }
  codes := .succeed
  reached _ := false

/-- Three rows of two cells, restored by two processes. -/
theorem restart_complete_three_rows :
    Restored littleEndianInt (checkpointFile littleEndianInt 3 2 5 [1, 0, 0, 1, 1, 1]) 3 2 2
      blankArguments [1, 0, 0, 1, 1, 1] :=
  (restart_complete littleEndianInt 3 2 2 (by decide) (by decide) (by decide) (by decide) 3 2 5
    [1, 0, 0, 1, 1, 1] (by decide) blankArguments fun _ _ => rfl).1 ⟨rfl, rfl⟩

end HandsOn.Life.Mpiio
