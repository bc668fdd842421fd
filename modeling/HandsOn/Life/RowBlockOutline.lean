import HandsOn.Life.RowBlock

/-!
# The rows of every rank in every iteration

The proof outline of the exchange of edges: which entries of a rank's matrices
hold cells of the current generation, and which are dead. Ranks without rows come
last; what they pass up is dead and what they pass down reaches no cell.
-/

namespace HandsOn.Life

open HandsOn.Mpi

variable {nprocs : ℕ} (rows cols ntimes : ℕ) (grid : Grid)

/-- What entry `address` of `rank` holds before iteration `k`. -/
structure RowsCell (k : ℕ) (rank : Fin nprocs) (address : Addr) (value : Int) : Prop where
  interior : ∀ row col, 1 ≤ row → row ≤ rowsOf rows rank → col < cols + 2 →
    address = entry cols (matrixAt k) row col →
    value = cell (grid.generation rows cols k (offsetOf rows rank + row) col)
  sides : ∀ buffer row col, 1 ≤ row → row ≤ rowsOf rows rank → (col = 0 ∨ col = cols + 1) →
    address = entry cols buffer row col → value = dies
  top : ∀ buffer col, rank.val = 0 → col < cols + 2 → address = entry cols buffer 0 col →
    value = dies
  bottom : ∀ buffer col, offsetOf rows rank + rowsOf rows rank = rows → col < cols + 2 →
    address = entry cols buffer (rowsOf rows rank + 1) col → value = dies

/-- What element `index` of an edge row carries in iteration `k`. -/
structure RowsElement (k : ℕ) (source dest : Fin nprocs) (index : ℕ) (value : Int) : Prop where
  up : dest.val + 1 = source →
    value = cell (grid.generation rows cols k (offsetOf rows source + 1) index)
  down : source.val + 1 = dest → 1 ≤ rowsOf rows source →
    value = cell (grid.generation rows cols k (offsetOf rows source + rowsOf rows source) index)

variable {rows cols ntimes grid}

/-- The elements of the exchange of edges. -/
theorem edges_listed {k index : ℕ} {source dest : Fin nprocs} {origin target : Addr} :
    ((edges nprocs rows cols ntimes).transfers k source dest)[index]? = some (origin, target) ↔
      k < ntimes ∧ index < cols + 2 ∧
        ((source.val + 1 = dest ∧
            origin = entry cols (matrixAt k) (rowsOf rows source) index ∧
            target = entry cols (matrixAt k) 0 index) ∨
          (dest.val + 1 = source ∧ origin = entry cols (matrixAt k) 1 index ∧
            target = entry cols (matrixAt k) (rowsOf rows dest + 1) index)) := by
  simp only [edges]
  split_ifs with inTime down up
  · simp only [List.getElem?_zip_eq_some, edge_getElem?]
    have : ¬ dest.val + 1 = source := by omega
    grind
  · simp only [List.getElem?_zip_eq_some, edge_getElem?]
    grind
  · simp [down, up]
  · simp [inTime]

/-- The halo rows are the targets of the exchange. -/
theorem edges_targets {k index : ℕ} {source rank : Fin nprocs} {address : Addr} :
    (edges nprocs rows cols ntimes).Targets k source rank index address ↔
      k < ntimes ∧ index < cols + 2 ∧
        ((source.val + 1 = rank ∧ address = entry cols (matrixAt k) 0 index) ∨
          (rank.val + 1 = source ∧
            address = entry cols (matrixAt k) (rowsOf rows rank + 1) index)) := by
  unfold Exchange.Targets
  simp only [edges_listed]
  grind

variable (rows) in
/-- The blocks end within the rows. -/
theorem offsetOf_add_rowsOf_le (rank : Fin nprocs) :
    offsetOf rows rank + rowsOf rows rank ≤ rows := by
  have ordered := myrowoffset_mono rows nprocs (Nat.succ_le_of_lt rank.isLt)
  rwa [myrowoffset_succ, myrowoffset_nprocs rows rank.pos] at ordered

/-- Only ranks past the last row own none. -/
theorem offsetOf_of_empty {rank : Fin nprocs} (empty : rowsOf rows rank = 0) :
    offsetOf rows rank = rows :=
  myrowoffset_of_empty rank.isLt empty

variable (rows) in
theorem offsetOf_succ {rank other : Fin nprocs} (below : rank.val + 1 = other) :
    offsetOf rows other = offsetOf rows rank + rowsOf rows rank := by
  rw [offsetOf, ← below, myrowoffset_succ]

variable (rows) in
/-- The last rank's block ends with the last row. -/
theorem offsetOf_last {rank : Fin nprocs} (last : rank.val + 1 = nprocs) :
    offsetOf rows rank + rowsOf rows rank = rows := by
  rw [← myrowoffset_succ, last, myrowoffset_nprocs rows rank.pos]

theorem generation_below {row col : ℕ} (below : rows < row) (k : ℕ) :
    cell (grid.generation rows cols k row col) = dies := by
  rw [Grid.generation_outside (by unfold Inside; omega)]
  rfl

theorem generation_above (k col : ℕ) : cell (grid.generation rows cols k 0 col) = dies := by
  rw [Grid.generation_outside (by unfold Inside; omega)]
  rfl

theorem generation_beside {row col : ℕ} (beside : col = 0 ∨ col = cols + 1) (k : ℕ) :
    cell (grid.generation rows cols k row col) = dies := by
  rw [Grid.generation_outside (by unfold Inside; omega)]
  rfl

theorem rows_send {k index : ℕ} {source dest : Fin nprocs} {origin target : Addr} {value : Int}
    (listed : ((edges nprocs rows cols ntimes).transfers k source dest)[index]? =
      some (origin, target))
    (holds : RowsCell rows cols grid k source origin value) :
    RowsElement rows cols grid k source dest index value := by
  obtain ⟨-, inRow, ⟨down, rfl, -⟩ | ⟨up, rfl, -⟩⟩ := edges_listed.mp listed
  · refine ⟨fun up => by omega, fun _ nonempty => ?_⟩
    exact holds.interior _ index nonempty (Nat.le_refl _) inRow rfl
  · refine ⟨fun _ => ?_, fun down => by omega⟩
    rcases Nat.eq_zero_or_pos (rowsOf rows source) with empty | nonempty
    · have start := offsetOf_of_empty empty
      rw [generation_below (by omega)]
      exact holds.bottom _ index (by omega) inRow (by rw [empty])
    · exact holds.interior 1 index (Nat.le_refl _) nonempty inRow rfl

theorem rows_relay {k index index' : ℕ} {first source dest : Fin nprocs} {origin target : Addr}
    {value : Int}
    (targets : (edges nprocs rows cols ntimes).Targets k first source index' origin)
    (listed : ((edges nprocs rows cols ntimes).transfers k source dest)[index]? =
      some (origin, target))
    (holds : RowsElement rows cols grid k first source index' value) :
    RowsElement rows cols grid k source dest index value := by
  obtain ⟨-, inRow', targets⟩ := edges_targets.mp targets
  obtain ⟨-, inRow, ⟨down, rfl, -⟩ | ⟨up, rfl, -⟩⟩ := edges_listed.mp listed
  · refine ⟨fun up => by omega, fun _ nonempty => ?_⟩
    rcases targets with ⟨_, same⟩ | ⟨_, same⟩ <;> rw [entry_inj inRow inRow'] at same <;> omega
  · refine ⟨fun _ => ?_, fun down => by omega⟩
    rcases targets with ⟨_, same⟩ | ⟨above, same⟩ <;> rw [entry_inj inRow inRow'] at same
    · omega
    · obtain ⟨-, row, rfl⟩ := same
      have value := holds.up above
      rwa [offsetOf_succ rows above, show rowsOf rows source = 0 by omega, Nat.add_zero] at value

section Update

variable {k : ℕ} {rank : Fin nprocs} {mem : Mem}

/-- A rank's matrices when its exchange of iteration `k` has ended. -/
abbrev Exchanged (rows cols ntimes : ℕ) (grid : Grid) (k : ℕ) (rank : Fin nprocs) (mem : Mem) :
    Prop :=
  (edges nprocs rows cols ntimes).Completed (RowsCell rows cols grid)
    (RowsElement rows cols grid) k rank mem

/-- The exchange reaches no entry outside the halo rows of `matrix`. -/
theorem Exchanged.kept (exchanged : Exchanged rows cols ntimes grid k rank mem)
    {buffer : Buffer} {row col : ℕ} (inRow : col < cols + 2)
    (outside : buffer = matrixAt k → row ≠ 0 ∧ row ≠ rowsOf rows rank + 1) :
    RowsCell rows cols grid k rank (entry cols buffer row col)
      (mem (entry cols buffer row col)) := by
  rcases exchanged (entry cols buffer row col) with ⟨source, index, targets, _⟩ | ⟨_, holds⟩
  · obtain ⟨_, inRow', ⟨_, same⟩ | ⟨_, same⟩⟩ := edges_targets.mp targets <;>
      rw [entry_inj inRow inRow'] at same <;> grind
  · exact holds

/-- The halo row above the first row is the last row of the previous rank, or dead. -/
theorem Exchanged.above (exchanged : Exchanged rows cols ntimes grid k rank mem)
    (inTime : k < ntimes) (nonempty : 1 ≤ rowsOf rows rank) {col : ℕ} (inRow : col < cols + 2) :
    mem (entry cols (matrixAt k) 0 col) =
      cell (grid.generation rows cols k (offsetOf rows rank) col) := by
  rcases exchanged (entry cols (matrixAt k) 0 col) with
    ⟨source, index, targets, element⟩ | ⟨untargeted, holds⟩
  · obtain ⟨_, inRow', ⟨down, same⟩ | ⟨_, same⟩⟩ := edges_targets.mp targets <;>
      rw [entry_inj inRow inRow'] at same
    · obtain ⟨-, -, rfl⟩ := same
      have start := offsetOf_succ rows down
      rw [start]
      refine element.down down (Nat.pos_of_ne_zero fun empty => ?_)
      have ends := offsetOf_of_empty empty
      have within := offsetOf_add_rowsOf_le rows rank
      omega
    · omega
  · rcases Nat.eq_zero_or_pos rank.val with first | later
    · have start : offsetOf rows rank = 0 := by rw [offsetOf, first, myrowoffset_zero]
      rw [start, generation_above]
      exact holds.top _ col first inRow rfl
    · refine absurd (edges_targets.mpr ⟨inTime, inRow, .inl ⟨?_, rfl⟩⟩)
        (untargeted ⟨rank - 1, by omega⟩ col)
      exact Nat.sub_add_cancel later

/-- The halo row below the last row is the first row of the next rank, or dead. -/
theorem Exchanged.below (exchanged : Exchanged rows cols ntimes grid k rank mem)
    (inTime : k < ntimes) {col : ℕ} (inRow : col < cols + 2) :
    mem (entry cols (matrixAt k) (rowsOf rows rank + 1) col) =
      cell (grid.generation rows cols k (offsetOf rows rank + rowsOf rows rank + 1) col) := by
  rcases exchanged (entry cols (matrixAt k) (rowsOf rows rank + 1) col) with
    ⟨source, index, targets, element⟩ | ⟨untargeted, holds⟩
  · obtain ⟨_, inRow', ⟨_, same⟩ | ⟨up, same⟩⟩ := edges_targets.mp targets <;>
      rw [entry_inj inRow inRow'] at same
    · omega
    · obtain ⟨-, -, rfl⟩ := same
      rw [← offsetOf_succ rows up]
      exact element.up up
  · rcases Nat.lt_or_eq_of_le (Nat.succ_le_of_lt rank.isLt) with inner | last
    · exact absurd (edges_targets.mpr ⟨inTime, inRow, .inr ⟨rfl, rfl⟩⟩)
        (untargeted ⟨rank + 1, inner⟩ col)
    · have ends := offsetOf_last rows last
      rw [generation_below (by omega)]
      exact holds.bottom _ col ends inRow rfl

/-- After the exchange, a rank with rows sees the current generation around its
block. -/
theorem Exchanged.view (exchanged : Exchanged rows cols ntimes grid k rank mem)
    (inTime : k < ntimes) (nonempty : 1 ≤ rowsOf rows rank) {row col : ℕ}
    (inRows : row ≤ rowsOf rows rank + 1) (inRow : col < cols + 2) :
    view cols (matrixAt k) mem row col =
      cell (grid.generation rows cols k (offsetOf rows rank + row) col) := by
  rcases Nat.eq_zero_or_pos row with rfl | positive
  · exact exchanged.above inTime nonempty inRow
  · rcases Nat.lt_or_eq_of_le inRows with inside | rfl
    · exact (exchanged.kept inRow (by omega)).interior row col positive (by omega) inRow rfl
    · exact exchanged.below inTime inRow

/-- The top halo row of the first rank stays dead. -/
theorem Exchanged.top_dead (exchanged : Exchanged rows cols ntimes grid k rank mem)
    (first : (rank : ℕ) = 0) (buffer : Buffer) {col : ℕ} (inRow : col < cols + 2) :
    mem (entry cols buffer 0 col) = dies := by
  rcases exchanged (entry cols buffer 0 col) with ⟨source, index, targets, _⟩ | ⟨_, holds⟩
  · obtain ⟨_, inRow', ⟨down, same⟩ | ⟨_, same⟩⟩ := edges_targets.mp targets <;>
      rw [entry_inj inRow inRow'] at same <;> omega
  · exact holds.top _ col first inRow rfl

/-- The bottom halo row of a rank whose rows end with the grid stays dead. -/
theorem Exchanged.bottom_dead (exchanged : Exchanged rows cols ntimes grid k rank mem)
    (ends : offsetOf rows rank + rowsOf rows rank = rows) (buffer : Buffer) {col : ℕ}
    (inRow : col < cols + 2) : mem (entry cols buffer (rowsOf rows rank + 1) col) = dies := by
  rcases exchanged (entry cols buffer (rowsOf rows rank + 1) col) with
    ⟨source, index, targets, element⟩ | ⟨_, holds⟩
  · obtain ⟨_, inRow', ⟨_, same⟩ | ⟨up, _⟩⟩ := edges_targets.mp targets
    · rw [entry_inj inRow inRow'] at same
      omega
    · have start := offsetOf_succ rows up
      rw [element.up up, generation_below (by omega)]
  · exact holds.bottom _ col ends inRow rfl

/-- The calculation takes the outline from one iteration to the next. -/
theorem Exchanged.calculate (exchanged : Exchanged rows cols ntimes grid k rank mem)
    (inTime : k < ntimes) (address : Addr) :
    RowsCell rows cols grid (k + 1) rank address (calculate rows cols k rank mem address) where
  interior row col firstRow lastRow inRow same := by
    subst same
    have ends := offsetOf_add_rowsOf_le rows rank
    by_cases beside : col = 0 ∨ col = cols + 1
    · rw [generation_beside beside, Life.calculate, sweep_outside inRow (by unfold Inside; omega)]
      exact (exchanged.kept inRow fun same => absurd same (Buffer.swap_ne _)).sides _ row col
        firstRow lastRow beside rfl
    · have inside : Inside (rowsOf rows rank) cols row col := ⟨⟨firstRow, lastRow⟩, by omega⟩
      have inGrid : Inside rows cols (offsetOf rows rank + row) (0 + col) := by
        unfold Inside at inside ⊢
        omega
      have around : ∀ i j, row - 1 ≤ i → i ≤ row + 1 → col - 1 ≤ j → j ≤ col + 1 →
          Life.view cols (matrixAt k) mem i j =
            cell (grid.generation rows cols k (offsetOf rows rank + i) (0 + j)) := by
        intro i j _ lastI _ lastJ
        rw [Nat.zero_add]
        exact exchanged.view inTime (by omega) (by omega) (by omega)
      have next := nextstate_generation firstRow inside.2.1 inGrid around
      rw [Nat.zero_add] at next
      exact (sweep_interior (Buffer.swap_ne _) inside mem).trans next
  sides buffer row col firstRow lastRow beside same := by
    subst same
    rw [Life.calculate, sweep_outside (by omega) (by unfold Inside; omega)]
    exact (exchanged.kept (by omega) (by omega)).sides _ row col firstRow lastRow beside rfl
  top buffer col first inRow same := by
    subst same
    rw [Life.calculate, sweep_outside inRow (by unfold Inside; omega)]
    exact exchanged.top_dead first buffer inRow
  bottom buffer col ends inRow same := by
    subst same
    rw [Life.calculate, sweep_outside inRow (by unfold Inside; omega)]
    exact exchanged.bottom_dead ends buffer inRow

end Update

/-! ### The outline -/

variable (nprocs rows cols ntimes grid) in
/-- The outline of Life on blocks of rows. -/
def rowsOutline : Exchange.Outline (edges nprocs rows cols ntimes) where
  Cell k rank address value := k ≤ ntimes → RowsCell rows cols grid k rank address value
  Element := RowsElement rows cols grid
  send listed holds := rows_send listed (holds (edges_listed.mp listed).1.le)
  relay := rows_relay
  update := by
    intro k rank mem exchanged address inTime
    have settled : Exchanged rows cols ntimes grid k rank mem := fun address =>
      (exchanged address).imp_right (And.imp_right fun holds => holds (Nat.le_of_succ_le inTime))
    exact settled.calculate inTime address

/-- The initial matrices of the ranks: boundaries dead, the rows of `grid` split by
`MLIFE_myrows` and `MLIFE_myrowoffset`, and anything else in the rest of the
allocations. -/
def InitialRows (rows cols : ℕ) (grid : Grid) (mem : Fin nprocs → Mem) : Prop :=
  ∀ rank, ∃ allocated, mem rank = initialise (rowsOf rows rank) cols
    (fun i j => cell (grid (offsetOf rows rank + i) j)) allocated

theorem InitialRows.cell {mem : Fin nprocs → Mem} (initial : InitialRows rows cols grid mem)
    (rank : Fin nprocs) (address : Addr) :
    RowsCell rows cols grid 0 rank address (mem rank address) := by
  obtain ⟨allocated, same⟩ := initial rank
  rw [same]
  have ends := offsetOf_add_rowsOf_le rows rank
  constructor
  case interior =>
    rintro row col firstRow lastRow inRow rfl
    by_cases beside : col = 0 ∨ col = cols + 1
    · rw [generation_beside beside]
      exact initialise_boundary (by omega) (by omega) (.inr beside) _ _ _
    · have inside : Inside (rowsOf rows rank) cols row col := ⟨⟨firstRow, lastRow⟩, by omega⟩
      have inGrid : Inside rows cols (offsetOf rows rank + row) col := by
        unfold Inside at inside ⊢
        omega
      rw [Grid.generation, Grid.restrict_inside inGrid]
      exact initialise_interior inside _ _
  case sides =>
    rintro buffer row col _ _ beside rfl
    exact initialise_boundary (by omega) (by omega) (.inr beside) _ _ _
  case top =>
    rintro buffer col _ inRow rfl
    exact initialise_boundary (by omega) (by omega) (.inl (.inl rfl)) _ _ _
  case bottom =>
    rintro buffer col _ inRow rfl
    exact initialise_boundary (by omega) (by omega) (.inl (.inr rfl)) _ _ _

/-- In the exchange of edges, a rank that has finished `k` iterations holds its rows
of generation `k`. -/
theorem edges_interior {rank : Fin nprocs} {k : ℕ} {mem : Mem}
    (reaches : (edges nprocs rows cols ntimes).Reaches (InitialRows rows cols grid) rank k mem)
    (inTime : k ≤ ntimes) {row col : ℕ} (inside : Inside (rowsOf rows rank) cols row col) :
    view cols (matrixAt k) mem row col =
      Life.cell (grid.generation rows cols k (offsetOf rows rank + row) col) := by
  obtain ⟨⟨firstRow, lastRow⟩, firstCol, lastCol⟩ := inside
  obtain ⟨state, reachable, rfl, rfl⟩ := reaches
  have sound := (rowsOutline nprocs rows cols ntimes grid).sound_of_reachable
    (fun mem initial rank address _ => initial.cell rank address) reachable
  refine (sound.cell_of_untargeted ?_ inTime).interior row col firstRow lastRow (by omega) rfl
  intro source index targets
  obtain ⟨_, inRow, ⟨_, same⟩ | ⟨_, same⟩⟩ := edges_targets.mp targets <;>
    rw [entry_inj (by omega) inRow] at same <;> omega

end HandsOn.Life
