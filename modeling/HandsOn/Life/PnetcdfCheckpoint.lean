import HandsOn.Life.Checkpoint
import HandsOn.Netcdf.Hyperslab

/-!
# The PnetCDF checkpoint and restart

`MLIFEIO_Checkpoint` and `MLIFEIO_Restart` of `mlife-io-pnetcdf.c`. The variable `matrix` has
its columns as the first dimension, while the memory type walks a block row by row.
-/

namespace HandsOn.Life.Pnetcdf

open HandsOn.Mpi HandsOn.Netcdf HandsOn.Semantics

/-- The dataset of a checkpoint: the dimensions of `matrix` in order, its elements, and
the global attribute. -/
structure Dataset where
  col : ℕ
  row : ℕ
  matrix : List ℕ → Int32
  iter : Int32

/-- `start`: column start, row start. -/
def start (rows nprocs rank : ℕ) : List ℕ := [0, myrowoffset rows rank nprocs]

/-- `count`: columns, rows. -/
def count (rows cols nprocs rank : ℕ) : List ℕ := [cols, myrows rows rank nprocs]

/-- What a rank writes to `matrix` in `MLIFEIO_Checkpoint`. -/
def checkpoint (int : Native Int32 4) (rows cols nprocs : ℕ) (memory : ℕ → Memory)
    (matrix : ℕ → Int) (rank : ℕ) : List (List ℕ × Int32) :=
  let type := typeCreateRowblk (matrix rank) (myrows rows rank nprocs) cols
  putVara (start rows nprocs rank) (count rows cols nprocs rank)
    (type.typemap.map fun element => (memory rank).load int element.1)

/-- The datasets that the ranks' `MLIFEIO_Checkpoint` may leave. -/
structure Checkpointed (int : Native Int32 4) (rows cols nprocs : ℕ) (iter : Int32)
    (memory : ℕ → Memory) (matrix : ℕ → Int) (dataset : Dataset) : Prop where
  col : dataset.col = cols
  row : dataset.row = rows
  iter : dataset.iter = iter
  written : Holds (collective nprocs (checkpoint int rows cols nprocs memory matrix))
    dataset.matrix

/-- Every rank holds its block of the grid. -/
def Distributed (int : Native Int32 4) (rows cols nprocs : ℕ) (grid : ℕ → ℕ → Int32)
    (memory : ℕ → Memory) (matrix : ℕ → Int) : Prop :=
  ∀ rank < nprocs, HoldsBlock int rows cols nprocs grid rank (memory rank) (matrix rank)

/-- The element of `matrix` at a column and a row is that cell of the grid. -/
def StoresGrid (int : Native Int32 4) (rows cols nprocs : ℕ) (iter : Int32)
    (grid : ℕ → ℕ → Int32) (memory : ℕ → Memory) (matrix : ℕ → Int) : Prop :=
  ∀ dataset, Checkpointed int rows cols nprocs iter memory matrix dataset →
    ∀ row < rows, ∀ col < cols, dataset.matrix [col, row] = grid row col

variable {int : Native Int32 4} {rows cols nprocs : ℕ} {iter : Int32} {grid : ℕ → ℕ → Int32}
  {memory : ℕ → Memory} {matrix : ℕ → Int}

/-- A rank writes its cells row by row. -/
theorem checkpoint_eq {rank : ℕ}
    (holds : HoldsBlock int rows cols nprocs grid rank (memory rank) (matrix rank)) :
    checkpoint int rows cols nprocs memory matrix rank =
      putVara (start rows nprocs rank) (count rows cols nprocs rank)
        (rowMajor grid cols (myrowoffset rows rank nprocs) (myrows rows rank nprocs)) := by
  rw [checkpoint, ← holds.places, typemap_rowblk, List.map_map]
  rfl

theorem length_slab (rank : ℕ) : (hyperslab (start rows nprocs rank)
    (count rows cols nprocs rank)).length =
      (rowMajor grid cols (myrowoffset rows rank nprocs) (myrows rows rank nprocs)).length := by
  rw [start, count, length_hyperslab_pair, length_rowMajor, Nat.mul_comm]

theorem keys_checkpoint {rank : ℕ}
    (holds : HoldsBlock int rows cols nprocs grid rank (memory rank) (matrix rank)) :
    (checkpoint int rows cols nprocs memory matrix rank).map Prod.fst =
      hyperslab (start rows nprocs rank) (count rows cols nprocs rank) := by
  rw [checkpoint_eq holds, putVara, List.map_fst_zip (length_slab rank).le]

/-- No element of the variable is written twice. -/
theorem keys_nodup (distributed : Distributed int rows cols nprocs grid memory matrix) :
    ((collective nprocs (checkpoint int rows cols nprocs memory matrix)).map Prod.fst).Nodup := by
  have keys : (collective nprocs (checkpoint int rows cols nprocs memory matrix)).map Prod.fst =
      (List.range nprocs).flatMap fun rank =>
        hyperslab (start rows nprocs rank) (count rows cols nprocs rank) := by
    rw [collective, List.map_flatMap]
    exact List.flatMap_congr fun rank inside =>
      keys_checkpoint (distributed rank (List.mem_range.mp inside))
  rw [keys, List.nodup_flatMap]
  refine ⟨fun rank _ => hyperslab_nodup _ _, List.nodup_range.imp ?_⟩
  intro rank rank' different index inside inside'
  simp only [start, count, hyperslab_pair, List.mem_flatMap, List.mem_map,
    List.mem_range'_1] at inside inside'
  obtain ⟨col, _, row, block, rfl⟩ := inside
  obtain ⟨col', _, row', block', same⟩ := inside'
  rw [List.cons.injEq, List.cons.injEq] at same
  obtain ⟨rfl, rfl, _⟩ := same
  exact different (block_unique block.1 block.2 block'.1 block'.2)

/-- A checkpoint always leaves some dataset. -/
theorem exists_checkpointed (int : Native Int32 4) (rows cols nprocs : ℕ) (iter : Int32)
    (memory : ℕ → Memory) (matrix : ℕ → Int) :
    ∃ dataset, Checkpointed int rows cols nprocs iter memory matrix dataset := by
  obtain ⟨array, holds⟩ := exists_holds
    (collective nprocs (checkpoint int rows cols nprocs memory matrix))
  exact ⟨⟨cols, rows, array, iter⟩, rfl, rfl, rfl, holds⟩

/-- Restricted to a rank's block, the variable holds the grid exactly if the block's
cells are the same list row by row and column by column. -/
theorem block_agrees (rank : ℕ) :
    (∀ write ∈ putVara (start rows nprocs rank) (count rows cols nprocs rank)
        (rowMajor grid cols (myrowoffset rows rank nprocs) (myrows rows rank nprocs)),
      grid (write.1.getD 1 0) (write.1.getD 0 0) = write.2) ↔
    rowMajor grid cols (myrowoffset rows rank nprocs) (myrows rows rank nprocs) =
      columnMajor grid cols (myrowoffset rows rank nprocs) (myrows rows rank nprocs) := by
  have listed : (hyperslab (start rows nprocs rank) (count rows cols nprocs rank)).map
      (fun index => grid (index.getD 1 0) (index.getD 0 0)) =
        columnMajor grid cols (myrowoffset rows rank nprocs) (myrows rows rank nprocs) := by
    rw [start, count, hyperslab_pair, columnMajor, List.map_flatMap, List.range_eq_range']
    refine List.flatMap_congr fun col _ => ?_
    rw [List.map_map]
    rfl
  refine (zip_agrees (f := fun index : List ℕ => grid (index.getD 1 0) (index.getD 0 0))
    (length_slab rank)).trans ?_
  rw [listed]
  exact eq_comm

/-- For a given grid the variable is right exactly if every block reads the same in
both orders. -/
theorem storesGrid_iff (distributed : Distributed int rows cols nprocs grid memory matrix)
    (positive : 1 ≤ nprocs) :
    StoresGrid int rows cols nprocs iter grid memory matrix ↔ ∀ rank < nprocs,
      rowMajor grid cols (myrowoffset rows rank nprocs) (myrows rows rank nprocs) =
        columnMajor grid cols (myrowoffset rows rank nprocs) (myrows rows rank nprocs) := by
  have distinct := keys_nodup distributed
  have lands : ∀ {rank index value}, rank < nprocs →
      (index, value) ∈ checkpoint int rows cols nprocs memory matrix rank →
        landed (collective nprocs (checkpoint int rows cols nprocs memory matrix)) index =
          [value] := fun inside listed => (landed_eq_singleton distinct).mpr
    (List.mem_flatMap.mpr ⟨_, List.mem_range.mpr inside, listed⟩)
  constructor
  · intro stores rank inside
    obtain ⟨dataset, checkpointed⟩ := exists_checkpointed int rows cols nprocs iter memory matrix
    refine (block_agrees rank).mp ?_
    rintro ⟨index, value⟩ listed
    have slab := (List.of_mem_zip listed).1
    simp only [start, count, hyperslab_pair, List.mem_flatMap, List.mem_map,
      List.mem_range'_1] at slab
    obtain ⟨col, inCols, row, inRows, rfl⟩ := slab
    rw [← checkpoint_eq (distributed rank inside)] at listed
    have ends := myrowoffset_add_le rows inside
    rw [← checkpointed.written.eq_of_singleton (lands inside listed)]
    exact (stores dataset checkpointed row (by omega) col (by omega)).symm
  · intro same dataset checkpointed row inRows col inCols
    obtain ⟨rank, inside, starts, ends⟩ := exists_block positive inRows
    have slab : [col, row] ∈ hyperslab (start rows nprocs rank) (count rows cols nprocs rank) :=
      mem_hyperslab_pair.mpr ⟨⟨Nat.zero_le _, by omega⟩, starts, ends⟩
    rw [← keys_checkpoint (distributed rank inside)] at slab
    obtain ⟨⟨index, value⟩, listed, atIndex⟩ := List.mem_map.mp slab
    obtain rfl : index = [col, row] := atIndex
    have one := lands inside listed
    rw [checkpoint_eq (distributed rank inside)] at listed
    have agrees : grid row col = value := (block_agrees rank).mpr (same rank inside) _ listed
    exact (checkpointed.written.eq_of_singleton one).trans agrees.symm

/-- The variable is right for a given grid exactly if every block reads the same row by
row and column by column, and it is right for every grid exactly if there is one
column or no rank has two rows. -/
theorem checkpoint_stores_grid (int : Native Int32 4) (rows cols nprocs : ℕ) (iter : Int32)
    (someCol : 1 ≤ cols) (positive : 1 ≤ nprocs) :
    (∀ grid memory matrix, Distributed int rows cols nprocs grid memory matrix →
      (StoresGrid int rows cols nprocs iter grid memory matrix ↔ ∀ rank < nprocs,
        rowMajor grid cols (myrowoffset rows rank nprocs) (myrows rows rank nprocs) =
          columnMajor grid cols (myrowoffset rows rank nprocs) (myrows rows rank nprocs))) ∧
    ((∀ grid memory matrix, Distributed int rows cols nprocs grid memory matrix →
      StoresGrid int rows cols nprocs iter grid memory matrix) ↔ cols = 1 ∨ rows ≤ nprocs) := by
  refine ⟨fun grid memory matrix distributed => storesGrid_iff distributed positive, ?_, ?_⟩
  · intro always
    by_contra! several
    obtain ⟨manyCols, manyRows⟩ := several
    have distributed : Distributed int rows cols nprocs (fun _ col => if col = 0 then 0 else 1)
        _ fun _ => 0 := fun rank _ => holdsBlock_image int rows cols nprocs _ rank
    have same := (storesGrid_iff distributed positive).mp (always _ _ _ distributed) 0 positive
    exact rowMajor_ne_columnMajor _ (by omega) (two_le_myrows_zero positive manyRows) same
  · rintro few grid memory matrix distributed
    refine (storesGrid_iff distributed positive).mpr fun rank _ => ?_
    obtain rfl | fewRows := few
    · exact rowMajor_one_col grid _ _
    · exact rowMajor_one_row grid cols _ (myrows_le_one fewRows rank)

theorem checkpoint_stores_grid_square :
    ¬ ∀ grid memory matrix, Distributed littleEndianInt 2 2 1 grid memory matrix →
      StoresGrid littleEndianInt 2 2 1 0 grid memory matrix := fun always =>
  absurd ((checkpoint_stores_grid littleEndianInt 2 2 1 0 (by decide) (by decide)).2.mp always)
    (by decide)

private def stripes (_ col : ℕ) : Int32 := if col = 0 then 0 else 1

private def stripesMemory (rank : ℕ) : Memory :=
  Memory.image littleEndianInt fun index =>
    stripes (myrowoffset 2 rank 1 + index / 4 - 1) (index % 4 - 1)

/-- Two by two cells on one process: cell `(1, 0)` is stored where `(0, 1)` belongs. -/
theorem stripes_not_stored :
    Distributed littleEndianInt 2 2 1 stripes stripesMemory (fun _ => 0) ∧
      ¬ StoresGrid littleEndianInt 2 2 1 0 stripes stripesMemory fun _ => 0 := by
  have distributed : Distributed littleEndianInt 2 2 1 stripes stripesMemory fun _ => 0 :=
    fun rank _ => holdsBlock_image littleEndianInt 2 2 1 stripes rank
  refine ⟨distributed, fun stores => ?_⟩
  exact absurd ((storesGrid_iff distributed (Nat.le_refl 1)).mp stores 0 Nat.one_pos) (by decide)

/-! ### Restart -/

/-- The codes that `MLIFEIO_Restart` returns. -/
inductive ErrorCode where
  | success
  | errIo
deriving DecidableEq

/-- `matrix[i][j] = value` -/
def assign (matrix : ℕ → ℕ → Int32) (i j : ℕ) (value : Int32) : ℕ → ℕ → Int32 :=
  fun i' j' => if i' = i ∧ j' = j then value else matrix i' j'

/-- `MLIFEIO_Restart`, where `allocated` tells on which ranks the buffer could be
allocated. -/
def restart (rows cols nprocs : ℕ) (allocated : ℕ → Bool) (dataset : Dataset) (rank : ℕ)
    (matrix : ℕ → ℕ → Int32) : ErrorCode × (ℕ → ℕ → Int32) :=
  let myrows := myrows rows rank nprocs
  let coldimsz := dataset.col
  let rowdimsz := dataset.row
  if coldimsz ≠ cols then (.errIo, matrix)
  else if rowdimsz ≠ rows then (.errIo, matrix)
  else if (List.range nprocs).any fun rank => !allocated rank then (.errIo, matrix)
  else
    let buf := getVara dataset.matrix (start rows nprocs rank) (count rows cols nprocs rank)
    (.success, forLoop 0 myrows (fun i => forLoop 0 cols fun j matrix =>
      assign matrix (i + 1) j (buf.getD (i * cols + j) 0)) matrix)

/-- Restarting from the checkpoint leaves its cells in the interior of each matrix, and
the halo as it was. -/
def Undoes (int : Native Int32 4) (rows cols nprocs : ℕ) (iter : Int32) (allocated : ℕ → Bool)
    (grid : ℕ → ℕ → Int32) (memory : ℕ → Memory) (matrix : ℕ → Int)
    (target : ℕ → ℕ → ℕ → Int32) : Prop :=
  ∀ dataset, Checkpointed int rows cols nprocs iter memory matrix dataset →
    ∀ rank < nprocs,
      let myrows := myrows rows rank nprocs
      let restarted := (restart rows cols nprocs allocated dataset rank (target rank)).2
      (∀ i < myrows, ∀ j < cols,
        restarted (i + 1) (j + 1) = grid (myrowoffset rows rank nprocs + i) j) ∧
      ∀ i ≤ myrows + 1, ∀ j ≤ cols + 1, (i = 0 ∨ i = myrows + 1 ∨ j = 0 ∨ j = cols + 1) →
        restarted i j = target rank i j

/-- The halo of every matrix is dead. -/
def DeadHalo (rows cols nprocs : ℕ) (target : ℕ → ℕ → ℕ → Int32) : Prop :=
  ∀ rank < nprocs, ∀ i ≤ myrows rows rank nprocs + 1, ∀ j ≤ cols + 1,
    (i = 0 ∨ i = myrows rows rank nprocs + 1 ∨ j = 0 ∨ j = cols + 1) →
      target rank i j = Int32.ofInt dies

/-- The inner loop fills the columns of one row from `0` on. -/
theorem restart_row (cols row : ℕ) (cells : ℕ → Int32) (matrix : ℕ → ℕ → Int32) :
    ∀ i j, forLoop 0 cols (fun j matrix => assign matrix (row + 1) j (cells j)) matrix i j =
      if i = row + 1 ∧ j < cols then cells j else matrix i j := by
  refine forLoop_counts (P := fun (filled : ℕ) (after : ℕ → ℕ → Int32) => ∀ i j, after i j =
    if i = row + 1 ∧ j < filled then cells j else matrix i j) (Nat.zero_le cols) ?_ ?_
  · intro i j
    rw [if_neg (by omega)]
  · intro col current _ _ same i j
    rw [assign, same]
    by_cases here : i = row + 1 ∧ j = col
    · rw [if_pos here, if_pos (by omega), here.2]
    · rw [if_neg here]
      exact if_congr (by omega) rfl rfl

/-- The loops of the restart move a block into the columns from `0` on. -/
theorem restart_block (rows cols : ℕ) (cells : ℕ → ℕ → Int32) (matrix : ℕ → ℕ → Int32) :
    ∀ i j, forLoop 0 rows (fun i => forLoop 0 cols fun j matrix =>
        assign matrix (i + 1) j (cells i j)) matrix i j =
      if (1 ≤ i ∧ i ≤ rows) ∧ j < cols then cells (i - 1) j else matrix i j := by
  refine forLoop_counts (P := fun (filled : ℕ) (after : ℕ → ℕ → Int32) => ∀ i j, after i j =
    if (1 ≤ i ∧ i ≤ filled) ∧ j < cols then cells (i - 1) j else matrix i j) (Nat.zero_le rows)
    ?_ ?_
  · intro i j
    rw [if_neg (by omega)]
  · intro row current _ _ same i j
    rw [restart_row, same]
    by_cases here : i = row + 1 ∧ j < cols
    · obtain ⟨rfl, inCols⟩ := here
      rw [if_pos ⟨rfl, inCols⟩, if_pos (by omega)]
      rfl
    · rw [if_neg here]
      exact if_congr (by omega) rfl rfl

/-- What a restart reads is its block, row by row. -/
theorem getVara_checkpointed (distributed : Distributed int rows cols nprocs grid memory matrix)
    {dataset : Dataset}
    (checkpointed : Checkpointed int rows cols nprocs iter memory matrix dataset)
    {rank : ℕ} (inside : rank < nprocs) :
    getVara dataset.matrix (start rows nprocs rank) (count rows cols nprocs rank) =
      rowMajor grid cols (myrowoffset rows rank nprocs) (myrows rows rank nprocs) := by
  refine getVara_of_written checkpointed.written (keys_nodup distributed) (length_slab rank) ?_
  rw [← checkpoint_eq (distributed rank inside)]
  intro write listed
  exact List.mem_flatMap.mpr ⟨rank, List.mem_range.mpr inside, listed⟩

/-- Where every buffer is allocated, a restart moves each interior row one column to the
left of its place. -/
theorem restart_eq (distributed : Distributed int rows cols nprocs grid memory matrix)
    {dataset : Dataset}
    (checkpointed : Checkpointed int rows cols nprocs iter memory matrix dataset)
    {allocated : ℕ → Bool} (allocates : ∀ rank < nprocs, allocated rank = true) {rank : ℕ}
    (inside : rank < nprocs) (target : ℕ → ℕ → Int32) (i j : ℕ) :
    (restart rows cols nprocs allocated dataset rank target).2 i j =
      if (1 ≤ i ∧ i ≤ myrows rows rank nprocs) ∧ j < cols then
        grid (myrowoffset rows rank nprocs + (i - 1)) j
      else target i j := by
  have all : ¬ ((List.range nprocs).any fun rank => !allocated rank) = true := by
    simpa using allocates
  rw [restart, if_neg (not_not_intro checkpointed.col), if_neg (not_not_intro checkpointed.row),
    if_neg all, getVara_checkpointed distributed checkpointed inside]
  dsimp only
  rw [restart_block]
  refine ite_congr rfl (fun block => ?_) fun _ => rfl
  rw [List.getD_eq_getElem?_getD, rowMajor_getElem? grid _ (by omega) block.2, Option.getD_some]

/-- A failed allocation on any rank leaves every matrix as it was. -/
theorem restart_failed {dataset : Dataset} {allocated : ℕ → Bool}
    (fails : ¬ ∀ rank < nprocs, allocated rank = true) (rank : ℕ) (target : ℕ → ℕ → Int32) :
    restart rows cols nprocs allocated dataset rank target = (.errIo, target) := by
  have some : ((List.range nprocs).any fun rank => !allocated rank) = true := by
    simpa using fails
  rw [restart, if_pos some]
  simp only [ite_self]

section Undoing

variable {allocated : ℕ → Bool} {target : ℕ → ℕ → ℕ → Int32}

/-- If restart undoes checkpoint, each row passes the dead cell of its column `0` to all of
its cells. -/
theorem Undoes.dead_block
    (undoes : Undoes int rows cols nprocs iter allocated grid memory matrix target)
    (distributed : Distributed int rows cols nprocs grid memory matrix)
    (dead : DeadHalo rows cols nprocs target)
    (allocates : ∀ rank < nprocs, allocated rank = true) {rank i j : ℕ} (inside : rank < nprocs)
    (inRows : i < myrows rows rank nprocs) (inCols : j < cols) :
    grid (myrowoffset rows rank nprocs + i) j = Int32.ofInt dies := by
  obtain ⟨dataset, checkpointed⟩ := exists_checkpointed int rows cols nprocs iter memory matrix
  have restarted := restart_eq distributed checkpointed allocates inside (target rank)
  obtain ⟨interior, halo⟩ := undoes dataset checkpointed rank inside
  induction j with
  | zero =>
      have left := halo (i + 1) (by omega) 0 (by omega) (by omega)
      rw [restarted, if_pos (by omega), dead rank inside (i + 1) (by omega) 0 (by omega)
        (by omega)] at left
      exact left
  | succ j ih =>
      have moved := interior i inRows j (by omega)
      rw [restarted, if_pos (by omega), ih (by omega)] at moved
      exact moved

theorem Undoes.dead_grid
    (undoes : Undoes int rows cols nprocs iter allocated grid memory matrix target)
    (distributed : Distributed int rows cols nprocs grid memory matrix)
    (dead : DeadHalo rows cols nprocs target)
    (allocates : ∀ rank < nprocs, allocated rank = true) (positive : 1 ≤ nprocs) {row col : ℕ}
    (inRows : row < rows) (inCols : col < cols) : grid row col = Int32.ofInt dies := by
  obtain ⟨rank, inside, starts, ends⟩ := exists_block positive inRows
  have cell := undoes.dead_block distributed dead allocates inside
    (show row - myrowoffset rows rank nprocs < myrows rows rank nprocs by omega) inCols
  rwa [Nat.add_sub_cancel' starts] at cell

/-- The restart assigns nothing to the last column. -/
theorem Undoes.dead_last_col
    (undoes : Undoes int rows cols nprocs iter allocated grid memory matrix target)
    (distributed : Distributed int rows cols nprocs grid memory matrix)
    (dead : DeadHalo rows cols nprocs target)
    (allocates : ∀ rank < nprocs, allocated rank = true) (someCol : 1 ≤ cols) {rank i : ℕ}
    (inside : rank < nprocs) (inRows : i < myrows rows rank nprocs) :
    target rank (i + 1) cols = Int32.ofInt dies := by
  obtain ⟨dataset, checkpointed⟩ := exists_checkpointed int rows cols nprocs iter memory matrix
  have last := (undoes dataset checkpointed rank inside).1 i inRows (cols - 1) (by omega)
  rw [Nat.sub_add_cancel someCol,
    restart_eq distributed checkpointed allocates inside (target rank), if_neg (by omega),
    undoes.dead_block distributed dead allocates inside inRows (by omega)] at last
  exact last

theorem undoes_of_dead (distributed : Distributed int rows cols nprocs grid memory matrix)
    (dead : DeadHalo rows cols nprocs target)
    (allocates : ∀ rank < nprocs, allocated rank = true)
    (deadGrid : ∀ row < rows, ∀ col < cols, grid row col = Int32.ofInt dies)
    (lastCol : ∀ rank < nprocs, ∀ i < myrows rows rank nprocs,
      target rank (i + 1) cols = Int32.ofInt dies) :
    Undoes int rows cols nprocs iter allocated grid memory matrix target := by
  intro dataset checkpointed rank inside
  have restarted := restart_eq distributed checkpointed allocates inside (target rank)
  have ends := myrowoffset_add_le rows inside
  refine ⟨fun i inRows j inCols => ?_, fun i inRows j inCols halo => ?_⟩
  · rw [restarted, deadGrid _ (by omega) j inCols]
    split
    · next block => exact deadGrid _ (by omega) _ block.2
    · next past =>
        obtain rfl : j + 1 = cols := by omega
        exact lastCol rank inside i inRows
  · rw [restarted]
    split
    · next block => rw [deadGrid _ (by omega) _ block.2, dead rank inside i inRows j inCols halo]
    · rfl

/-- After a failed allocation the matrices are what they were. -/
theorem undoes_iff_of_failed (fails : ¬ ∀ rank < nprocs, allocated rank = true) :
    Undoes int rows cols nprocs iter allocated grid memory matrix target ↔
      ∀ rank < nprocs, ∀ i < myrows rows rank nprocs, ∀ j < cols,
        target rank (i + 1) (j + 1) = grid (myrowoffset rows rank nprocs + i) j := by
  have unchanged (dataset : Dataset) (rank : ℕ) :
      (restart rows cols nprocs allocated dataset rank (target rank)).2 = target rank :=
    congrArg Prod.snd (restart_failed fails rank (target rank))
  constructor
  · intro undoes rank inside
    obtain ⟨dataset, checkpointed⟩ := exists_checkpointed int rows cols nprocs iter memory matrix
    obtain ⟨interior, _⟩ := undoes dataset checkpointed rank inside
    rwa [unchanged] at interior
  · intro already dataset checkpointed rank inside
    dsimp only
    rw [unchanged]
    exact ⟨already rank inside, fun _ _ _ _ _ => rfl⟩

end Undoing

/-- Restart undoes checkpoint exactly if the whole grid is dead and so is the last
column of every matrix; where an allocation fails, exactly if the matrices hold the grid
already. -/
theorem restart_undoes_iff (int : Native Int32 4) (rows cols nprocs : ℕ) (iter : Int32)
    (allocated : ℕ → Bool) (grid : ℕ → ℕ → Int32) (memory : ℕ → Memory) (matrix : ℕ → Int)
    (target : ℕ → ℕ → ℕ → Int32) (someCol : 1 ≤ cols) (positive : 1 ≤ nprocs)
    (distributed : Distributed int rows cols nprocs grid memory matrix)
    (dead : DeadHalo rows cols nprocs target) :
    Undoes int rows cols nprocs iter allocated grid memory matrix target ↔
      if ∀ rank < nprocs, allocated rank = true then
        (∀ row < rows, ∀ col < cols, grid row col = Int32.ofInt dies) ∧
          ∀ rank < nprocs, ∀ i < myrows rows rank nprocs,
            target rank (i + 1) cols = Int32.ofInt dies
      else
        ∀ rank < nprocs, ∀ i < myrows rows rank nprocs, ∀ j < cols,
          target rank (i + 1) (j + 1) = grid (myrowoffset rows rank nprocs + i) j := by
  split
  · next allocates =>
      constructor
      · intro undoes
        constructor
        · intro row inRows col inCols
          exact undoes.dead_grid distributed dead allocates positive inRows inCols
        · intro rank inside i inRows
          exact undoes.dead_last_col distributed dead allocates someCol inside inRows
      · rintro ⟨deadGrid, lastCol⟩
        exact undoes_of_dead distributed dead allocates deadGrid lastCol
  · next fails => exact undoes_iff_of_failed fails

/-! Cells that are all alike. -/

private def uniform (cell : Int) (_ _ : ℕ) : Int32 := Int32.ofInt cell

private def uniformMemory (cell : Int) (_ : ℕ) : Memory :=
  Memory.image littleEndianInt fun _ => Int32.ofInt cell

private theorem uniform_distributed (rows cols nprocs : ℕ) (cell : Int) :
    Distributed littleEndianInt rows cols nprocs (uniform cell) (uniformMemory cell) fun _ => 0 :=
  fun rank _ => holdsBlock_image littleEndianInt rows cols nprocs (uniform cell) rank

/-- A matrix in which only the first columns are alive. -/
private def striped (_ i j : ℕ) : Int32 :=
  if 1 ≤ i ∧ i ≤ 2 ∧ 1 ≤ j ∧ j ≤ 2 then Int32.ofInt born else Int32.ofInt dies

theorem restart_undoes_iff_striped :
    Undoes littleEndianInt 5 3 2 0 (fun _ => true) (uniform dies) (uniformMemory dies)
      (fun _ => 0) striped := by
  have deadHalo : DeadHalo 5 3 2 striped := by
    unfold DeadHalo
    decide
  refine (restart_undoes_iff littleEndianInt 5 3 2 0 (fun _ => true) (uniform dies)
    (uniformMemory dies) (fun _ => 0) striped (by decide) (by decide)
    (uniform_distributed 5 3 2 dies) deadHalo).mpr ?_
  rw [if_pos fun _ _ => rfl]
  exact ⟨fun _ _ _ _ => rfl, by decide⟩

private theorem uniform_deadHalo : DeadHalo 1 1 1 fun _ => uniform dies :=
  fun _ _ _ _ _ _ _ => rfl

/-- A live cell is restored into the left halo. -/
theorem live_cell_not_restored :
    Distributed littleEndianInt 1 1 1 (uniform born) (uniformMemory born) (fun _ => 0) ∧
      DeadHalo 1 1 1 (fun _ => uniform dies) ∧
      ¬ Undoes littleEndianInt 1 1 1 0 (fun _ => true) (uniform born) (uniformMemory born)
        (fun _ => 0) fun _ => uniform dies := by
  have distributed := uniform_distributed 1 1 1 born
  refine ⟨distributed, uniform_deadHalo, fun undoes => ?_⟩
  have cell : uniform born 0 0 = Int32.ofInt dies := undoes.dead_grid distributed uniform_deadHalo
    (fun _ _ => rfl) (Nat.le_refl 1) Nat.one_pos Nat.one_pos
  exact absurd cell (by decide)

end HandsOn.Life.Pnetcdf
