import HandsOn.Life.Mesh

/-!
# The patches of every rank in every phase

The proof outline of the exchange of patch edges. After the first phase of an
iteration a patch has its halo columns next to its rows, after the second its
whole halo with the corners. Empty patches come first in each direction; what they
pass right or down is dead, and what they pass left or up reaches no cell.
-/

namespace HandsOn.Life.Dims

open HandsOn.Mpi

variable {nprocs : ℕ} (dims : Dims nprocs) (gRows gCols ntimes : ℕ) (grid : Grid)

/-- The rows of the mesh above a rank's patch. -/
abbrev rowOffset (rank : Fin nprocs) : ℕ := offsetBefore gRows dims.prows (dims.prow rank)

/-- The columns of the mesh to the left of a rank's patch. -/
abbrev colOffset (rank : Fin nprocs) : ℕ := offsetBefore gCols dims.pcols (dims.pcol rank)

/-- The value of the cell of the mesh under a position of a rank's patch in
iteration `k`. -/
def target (k : ℕ) (rank : Fin nprocs) (row col : ℕ) : Int :=
  cell (grid.generation gRows gCols k (dims.rowOffset gRows rank + row)
    (dims.colOffset gCols rank + col))

/-- What entry `address` of `rank` holds at the start of `phase`. -/
structure PatchCell (phase : ℕ) (rank : Fin nprocs) (address : Addr) (value : Int) : Prop where
  interior : ∀ row col, Inside (dims.rowsOf gRows rank) (dims.colsOf gCols rank) row col →
    address = entry (dims.colsOf gCols rank) (matrixAt (phase / 2)) row col →
    value = dims.target gRows gCols grid (phase / 2) rank row col
  sides : phase % 2 = 1 → 1 ≤ dims.colsOf gCols rank →
    ∀ row col, 1 ≤ row → row ≤ dims.rowsOf gRows rank →
    (col = 0 ∨ col = dims.colsOf gCols rank + 1) →
    address = entry (dims.colsOf gCols rank) (matrixAt (phase / 2)) row col →
    value = dims.target gRows gCols grid (phase / 2) rank row col
  left : dims.colOffset gCols rank = 0 →
    ∀ buffer row, 1 ≤ row → row ≤ dims.rowsOf gRows rank →
    address = entry (dims.colsOf gCols rank) buffer row 0 → value = dies
  right : dims.pcol rank + 1 = dims.pcols →
    ∀ buffer row, 1 ≤ row → row ≤ dims.rowsOf gRows rank →
    address = entry (dims.colsOf gCols rank) buffer row (dims.colsOf gCols rank + 1) →
    value = dies
  top : dims.rowOffset gRows rank = 0 → 1 ≤ dims.colsOf gCols rank →
    ∀ buffer col, col < dims.colsOf gCols rank + 2 →
    address = entry (dims.colsOf gCols rank) buffer 0 col → value = dies
  bottom : dims.prow rank + 1 = dims.prows →
    ∀ buffer col, col < dims.colsOf gCols rank + 2 →
    address = entry (dims.colsOf gCols rank) buffer (dims.rowsOf gRows rank + 1) col →
    value = dies

/-- What element `index` of an edge carries in `phase`. -/
structure PatchElement (phase : ℕ) (source dest : Fin nprocs) (index : ℕ) (value : Int) :
    Prop where
  left : phase % 2 = 0 → dims.RightOf dest source → 1 ≤ dims.colsOf gCols source →
    value = dims.target gRows gCols grid (phase / 2) source (index + 1) 1
  right : phase % 2 = 0 → dims.RightOf source dest →
    value = dims.target gRows gCols grid (phase / 2) source (index + 1) (dims.colsOf gCols source)
  up : phase % 2 = 1 → dims.Below dest source → 1 ≤ dims.colsOf gCols source →
    1 ≤ dims.rowsOf gRows source →
    value = dims.target gRows gCols grid (phase / 2) source 1 index
  down : phase % 2 = 1 → dims.Below source dest → 1 ≤ dims.colsOf gCols source →
    value = dims.target gRows gCols grid (phase / 2) source (dims.rowsOf gRows source) index

/-- Element `index` of an edge, from its place at the source to the one at the
destination. -/
inductive Moves (phase : ℕ) (source dest : Fin nprocs) (index : ℕ) : Addr → Addr → Prop where
  | left (even : phase % 2 = 0) (beside : dims.RightOf dest source)
      (inside : index < dims.rowsOf gRows dest) :
      Moves phase source dest index
        (entry (dims.colsOf gCols source) (matrixAt (phase / 2)) (index + 1) 1)
        (entry (dims.colsOf gCols dest) (matrixAt (phase / 2)) (index + 1)
          (dims.colsOf gCols dest + 1))
  | right (even : phase % 2 = 0) (beside : dims.RightOf source dest)
      (inside : index < dims.rowsOf gRows dest) :
      Moves phase source dest index
        (entry (dims.colsOf gCols source) (matrixAt (phase / 2)) (index + 1)
          (dims.colsOf gCols source))
        (entry (dims.colsOf gCols dest) (matrixAt (phase / 2)) (index + 1) 0)
  | up (odd : phase % 2 = 1) (under : dims.Below dest source)
      (inside : index < dims.colsOf gCols dest + 2) :
      Moves phase source dest index
        (entry (dims.colsOf gCols source) (matrixAt (phase / 2)) 1 index)
        (entry (dims.colsOf gCols dest) (matrixAt (phase / 2)) (dims.rowsOf gRows dest + 1)
          index)
  | down (odd : phase % 2 = 1) (under : dims.Below source dest)
      (inside : index < dims.colsOf gCols dest + 2) :
      Moves phase source dest index
        (entry (dims.colsOf gCols source) (matrixAt (phase / 2)) (dims.rowsOf gRows source)
          index)
        (entry (dims.colsOf gCols dest) (matrixAt (phase / 2)) 0 index)

/-- The row of the mesh under a row of a patch. -/
theorem rowOffset_add (rank : Fin nprocs) (row : ℕ) :
    dims.rowOffset gRows rank + row = row + (dims.meshDecomp gRows gCols rank).gFirstRow - 1 := by
  simp only [meshDecomp, firstOf, rowOffset, offsetBefore]
  omega

/-- The column of the mesh under a column of a patch. -/
theorem colOffset_add (rank : Fin nprocs) (col : ℕ) :
    dims.colOffset gCols rank + col = col + (dims.meshDecomp gRows gCols rank).gFirstCol - 1 := by
  simp only [meshDecomp, firstOf, colOffset, offsetBefore]
  omega

variable {dims gRows gCols ntimes grid}

theorem patches_listed {phase index : ℕ} {source dest : Fin nprocs} {origin stored : Addr} :
    ((dims.patches gRows gCols ntimes).transfers phase source dest)[index]? =
      some (origin, stored) ↔
      phase < 2 * ntimes ∧ dims.Moves gRows gCols phase source dest index origin stored := by
  simp only [patches]
  constructor
  · intro listed
    split_ifs at listed with inTime even left right above below
    · rw [List.getElem?_zip_eq_some, column_getElem?, column_getElem?] at listed
      obtain ⟨⟨_, rfl⟩, inside, rfl⟩ := listed
      exact ⟨inTime, .left even left inside⟩
    · rw [List.getElem?_zip_eq_some, column_getElem?, column_getElem?] at listed
      obtain ⟨⟨_, rfl⟩, inside, rfl⟩ := listed
      exact ⟨inTime, .right even right inside⟩
    · simp at listed
    · rw [List.getElem?_zip_eq_some, edge_getElem?, edge_getElem?] at listed
      obtain ⟨⟨_, rfl⟩, inside, rfl⟩ := listed
      exact ⟨inTime, .up (by omega) above inside⟩
    · rw [List.getElem?_zip_eq_some, edge_getElem?, edge_getElem?] at listed
      obtain ⟨⟨_, rfl⟩, inside, rfl⟩ := listed
      exact ⟨inTime, .down (by omega) below inside⟩
    · simp at listed
    · simp at listed
  · rintro ⟨inTime, moves⟩
    rw [if_pos inTime]
    cases moves with
    | left even beside inside =>
        rw [if_pos even, if_pos beside, List.getElem?_zip_eq_some, column_getElem?,
          column_getElem?]
        exact ⟨⟨dims.rowsOf_eq gRows beside ▸ inside, rfl⟩, inside, rfl⟩
    | right even beside inside =>
        rw [if_pos even, if_neg (dims.rightOf_asymm _ _ beside), if_pos beside,
          List.getElem?_zip_eq_some, column_getElem?, column_getElem?]
        exact ⟨⟨dims.rowsOf_eq gRows beside ▸ inside, rfl⟩, inside, rfl⟩
    | up odd under inside =>
        rw [if_neg (by omega), if_pos under, List.getElem?_zip_eq_some, edge_getElem?,
          edge_getElem?]
        exact ⟨⟨dims.colsOf_eq gCols under ▸ inside, rfl⟩, inside, rfl⟩
    | down odd under inside =>
        rw [if_neg (by omega), if_neg (dims.below_asymm _ _ under), if_pos under,
          List.getElem?_zip_eq_some, edge_getElem?, edge_getElem?]
        exact ⟨⟨dims.colsOf_eq gCols under ▸ inside, rfl⟩, inside, rfl⟩

/-! ### Neighbouring patches -/

theorem target_right {first second : Fin nprocs} (beside : dims.RightOf first second)
    (k row col : ℕ) :
    dims.target gRows gCols grid k first row (dims.colsOf gCols first + col) =
      dims.target gRows gCols grid k second row col := by
  have inner : dims.pcol first + 1 < dims.pcols := beside.2 ▸ dims.pcol_lt second
  rw [target, target, colOffset, colOffset, beside.2, offsetBefore_succ _ inner, rowOffset,
    rowOffset, beside.1, Nat.add_assoc]

theorem target_below {first second : Fin nprocs} (under : dims.Below first second)
    (k row col : ℕ) :
    dims.target gRows gCols grid k first (dims.rowsOf gRows first + row) col =
      dims.target gRows gCols grid k second row col := by
  have inner : dims.prow first + 1 < dims.prows := under.1 ▸ dims.prow_lt second
  rw [target, target, rowOffset, rowOffset, under.1, offsetBefore_succ _ inner, colOffset,
    colOffset, under.2, Nat.add_assoc]

theorem target_outside {rank : Fin nprocs} {row col : ℕ}
    (outside : ¬ Inside gRows gCols (dims.rowOffset gRows rank + row)
      (dims.colOffset gCols rank + col)) (k : ℕ) :
    dims.target gRows gCols grid k rank row col = dies := by
  rw [target, Grid.generation_outside outside]
  rfl

/-- The interior of a patch lies in the mesh. -/
theorem inside_mesh {rank : Fin nprocs} {row col : ℕ}
    (inside : Inside (dims.rowsOf gRows rank) (dims.colsOf gCols rank) row col) :
    Inside gRows gCols (dims.rowOffset gRows rank + row) (dims.colOffset gCols rank + col) := by
  have rows := offsetBefore_add_le gRows (dims.prow_lt rank)
  have cols := offsetBefore_add_le gCols (dims.pcol_lt rank)
  unfold Inside rowsOf colsOf at inside
  unfold Inside rowOffset colOffset
  omega

theorem target_left_edge {rank : Fin nprocs} (first : dims.colOffset gCols rank = 0)
    (k row : ℕ) : dims.target gRows gCols grid k rank row 0 = dies :=
  target_outside (by unfold Inside; omega) k

theorem target_top_edge {rank : Fin nprocs} (first : dims.rowOffset gRows rank = 0)
    (k col : ℕ) : dims.target gRows gCols grid k rank 0 col = dies :=
  target_outside (by unfold Inside; omega) k

theorem target_right_edge {rank : Fin nprocs} (last : dims.pcol rank + 1 = dims.pcols)
    (k row : ℕ) :
    dims.target gRows gCols grid k rank row (dims.colsOf gCols rank + 1) = dies := by
  have whole := offsetBefore_last gCols last
  refine target_outside ?_ k
  unfold Inside colOffset colsOf
  omega

theorem target_bottom_edge {rank : Fin nprocs} (last : dims.prow rank + 1 = dims.prows)
    (k col : ℕ) :
    dims.target gRows gCols grid k rank (dims.rowsOf gRows rank + 1) col = dies := by
  have whole := offsetBefore_last gRows last
  refine target_outside ?_ k
  unfold Inside rowOffset rowsOf
  omega

/-! ### What the edges carry -/

theorem patch_send {phase index : ℕ} {source dest : Fin nprocs} {origin stored : Addr}
    {value : Int} (moves : dims.Moves gRows gCols phase source dest index origin stored)
    (holds : dims.PatchCell gRows gCols grid phase source origin value) :
    dims.PatchElement gRows gCols grid phase source dest index value := by
  cases moves with
  | left even beside inside =>
      rw [← dims.rowsOf_eq gRows beside] at inside
      refine ⟨fun _ _ nonempty => ?_, fun _ right => ?_, by omega, by omega⟩
      · exact holds.interior (index + 1) 1 ⟨by omega, by omega⟩ rfl
      · exact absurd right (dims.rightOf_asymm _ _ beside)
  | right even beside inside =>
      rw [dims.rowsOf_eq gRows beside] at inside
      refine ⟨fun _ left => ?_, fun _ _ => ?_, by omega, by omega⟩
      · exact absurd left (dims.rightOf_asymm _ _ beside)
      · rcases Nat.eq_zero_or_pos (dims.colsOf gCols source) with empty | nonempty
        · have first := offsetBefore_of_empty (dims.pcol_lt source) empty
          rw [empty, target_left_edge first]
          exact holds.left first _ (index + 1) (by omega) inside (by rw [empty])
        · exact holds.interior (index + 1) _ ⟨by omega, by omega⟩ rfl
  | up odd under inside =>
      rw [← dims.colsOf_eq gCols under] at inside
      refine ⟨by omega, by omega, fun _ _ cols rows => ?_, fun _ below => ?_⟩
      · by_cases edge : index = 0 ∨ index = dims.colsOf gCols source + 1
        · exact holds.sides odd cols 1 index (Nat.le_refl _) rows edge rfl
        · exact holds.interior 1 index ⟨by omega, by omega⟩ rfl
      · exact absurd below (dims.below_asymm _ _ under)
  | down odd under inside =>
      rw [dims.colsOf_eq gCols under] at inside
      refine ⟨by omega, by omega, fun _ above => ?_, fun _ _ cols => ?_⟩
      · exact absurd above (dims.below_asymm _ _ under)
      · rcases Nat.eq_zero_or_pos (dims.rowsOf gRows source) with empty | rows
        · have first := offsetBefore_of_empty (dims.prow_lt source) empty
          rw [empty, target_top_edge first]
          exact holds.top first cols _ index inside (by rw [empty])
        · by_cases edge : index = 0 ∨ index = dims.colsOf gCols source + 1
          · exact holds.sides odd cols _ index rows (Nat.le_refl _) edge rfl
          · exact holds.interior _ index ⟨by omega, by omega⟩ rfl

/-- An edge that is also a halo, in an empty patch, carries the same before and after
it is stored to. -/
theorem patch_relay {phase index index' : ℕ} {first source dest : Fin nprocs}
    {origin stored origin' : Addr} {value : Int}
    (arrives : dims.Moves gRows gCols phase first source index' origin' origin)
    (moves : dims.Moves gRows gCols phase source dest index origin stored)
    (holds : dims.PatchElement gRows gCols grid phase first source index' value) :
    dims.PatchElement gRows gCols grid phase source dest index value := by
  generalize same : origin = place at arrives
  cases moves with
  | left even beside inside =>
      refine ⟨fun _ _ nonempty => ?_, fun _ right => ?_, by omega, by omega⟩
      · cases arrives <;> first | omega | (rw [entry_inj (by omega) (by omega)] at same; omega)
      · exact absurd right (dims.rightOf_asymm _ _ beside)
  | right even beside inside =>
      refine ⟨fun _ left => ?_, fun _ _ => ?_, by omega, by omega⟩
      · exact absurd left (dims.rightOf_asymm _ _ beside)
      · cases arrives with
        | left => rw [entry_inj (by omega) (by omega)] at same; omega
        | right _ beside' =>
            rw [entry_inj (by omega) (by omega)] at same
            obtain ⟨-, rows, empty⟩ := same
            obtain rfl : index = index' := by omega
            rw [holds.right even beside', empty, ← target_right beside']
            rfl
        | up odd => omega
        | down odd => omega
  | up odd under inside =>
      rw [← dims.colsOf_eq gCols under] at inside
      refine ⟨by omega, by omega, fun _ _ cols rows => ?_, fun _ below => ?_⟩
      · cases arrives <;> first | omega | (rw [entry_inj inside (by omega)] at same; omega)
      · exact absurd below (dims.below_asymm _ _ under)
  | down odd under inside =>
      rw [dims.colsOf_eq gCols under] at inside
      refine ⟨by omega, by omega, fun _ above => ?_, fun _ _ cols => ?_⟩
      · exact absurd above (dims.below_asymm _ _ under)
      · cases arrives with
        | left even => omega
        | right even => omega
        | up _ _ inside' => rw [entry_inj inside inside'] at same; omega
        | down _ under' inside' =>
            rw [entry_inj inside inside'] at same
            obtain ⟨-, empty, rfl⟩ := same
            rw [holds.down odd under' (dims.colsOf_eq gCols under' ▸ cols), empty,
              ← target_below under']
            rfl

/-! ### A patch after an exchange -/

section Update

variable {phase : ℕ} {rank : Fin nprocs} {mem : Mem}

/-- A patch when its exchange of `phase` has ended. -/
abbrev Exchanged (dims : Dims nprocs) (gRows gCols ntimes : ℕ) (grid : Grid) (phase : ℕ)
    (rank : Fin nprocs) (mem : Mem) : Prop :=
  (dims.patches gRows gCols ntimes).Completed (dims.PatchCell gRows gCols grid)
    (dims.PatchElement gRows gCols grid) phase rank mem

/-- What an entry of a patch holds after an exchange: an element from one of the
neighbours, or what it held before if no neighbour reaches it. -/
inductive Holds (dims : Dims nprocs) (gRows gCols : ℕ) (grid : Grid) (phase : ℕ)
    (rank : Fin nprocs) (buffer : Buffer) (row col : ℕ) (value : Int) : Prop where
  | kept
      (unreached : ∀ source index origin, ¬ dims.Moves gRows gCols phase source rank index origin
        (entry (dims.colsOf gCols rank) buffer row col))
      (cell : dims.PatchCell gRows gCols grid phase rank
        (entry (dims.colsOf gCols rank) buffer row col) value)
  | left (even : phase % 2 = 0) (here : buffer = matrixAt (phase / 2)) (source : Fin nprocs)
      (beside : dims.RightOf source rank) (edge : col = 0) (firstRow : 1 ≤ row)
      (lastRow : row ≤ dims.rowsOf gRows rank)
      (carried : value = dims.target gRows gCols grid (phase / 2) rank row col)
  | right (even : phase % 2 = 0) (here : buffer = matrixAt (phase / 2)) (source : Fin nprocs)
      (beside : dims.RightOf rank source) (edge : col = dims.colsOf gCols rank + 1)
      (firstRow : 1 ≤ row) (lastRow : row ≤ dims.rowsOf gRows rank)
      (carried : 1 ≤ dims.colsOf gCols source →
        value = dims.target gRows gCols grid (phase / 2) rank row col)
  | above (odd : phase % 2 = 1) (here : buffer = matrixAt (phase / 2)) (source : Fin nprocs)
      (under : dims.Below source rank) (edge : row = 0)
      (carried : 1 ≤ dims.colsOf gCols rank →
        value = dims.target gRows gCols grid (phase / 2) rank row col)
  | below (odd : phase % 2 = 1) (here : buffer = matrixAt (phase / 2)) (source : Fin nprocs)
      (under : dims.Below rank source) (edge : row = dims.rowsOf gRows rank + 1)
      (carried : 1 ≤ dims.colsOf gCols rank → 1 ≤ dims.rowsOf gRows source →
        value = dims.target gRows gCols grid (phase / 2) rank row col)

theorem Exchanged.holds (exchanged : dims.Exchanged gRows gCols ntimes grid phase rank mem)
    (inTime : phase < 2 * ntimes) (buffer : Buffer) (row : ℕ) {col : ℕ}
    (inRow : col < dims.colsOf gCols rank + 2) :
    dims.Holds gRows gCols grid phase rank buffer row col
      (mem (entry (dims.colsOf gCols rank) buffer row col)) := by
  rcases exchanged (entry (dims.colsOf gCols rank) buffer row col) with
    ⟨source, index, ⟨origin, listed⟩, element⟩ | ⟨untargeted, cell⟩
  · have moves := (patches_listed.mp listed).2
    generalize same : entry (dims.colsOf gCols rank) buffer row col = place at moves element
    cases moves with
    | left even beside inside =>
        obtain ⟨here, rfl, edge⟩ := (entry_inj inRow (by omega)).mp same
        refine .right even here source beside edge (by omega) inside fun nonempty => ?_
        rw [element.left even beside nonempty, ← target_right beside, edge]
    | right even beside inside =>
        obtain ⟨here, rfl, edge⟩ := (entry_inj inRow (by omega)).mp same
        refine .left even here source beside edge (by omega) inside ?_
        rw [element.right even beside, edge, ← target_right beside]
        rfl
    | up odd under inside =>
        obtain ⟨here, edge, rfl⟩ := (entry_inj inRow inside).mp same
        refine .below odd here source under edge fun cols rows => ?_
        rw [element.up odd under (dims.colsOf_eq gCols under ▸ cols) rows, ← target_below under,
          edge]
    | down odd under inside =>
        obtain ⟨here, edge, rfl⟩ := (entry_inj inRow inside).mp same
        refine .above odd here source under edge fun cols => ?_
        rw [element.down odd under (dims.colsOf_eq gCols under ▸ cols), edge,
          ← target_below under]
        rfl
  · refine .kept (fun source index origin moves => ?_) cell
    exact untargeted source index ⟨origin, patches_listed.mpr ⟨inTime, moves⟩⟩

/-- After the first phase, the halo columns beside the rows of a patch that has
columns hold the current generation. -/
theorem Exchanged.beside (exchanged : dims.Exchanged gRows gCols ntimes grid phase rank mem)
    (inTime : phase < 2 * ntimes) (even : phase % 2 = 0) (cols : 1 ≤ dims.colsOf gCols rank)
    {row col : ℕ} (firstRow : 1 ≤ row) (lastRow : row ≤ dims.rowsOf gRows rank)
    (edge : col = 0 ∨ col = dims.colsOf gCols rank + 1) :
    mem (entry (dims.colsOf gCols rank) (matrixAt (phase / 2)) row col) =
      dims.target gRows gCols grid (phase / 2) rank row col := by
  obtain ⟨index, rfl⟩ : ∃ index, row = index + 1 := ⟨row - 1, by omega⟩
  cases exchanged.holds inTime (matrixAt (phase / 2)) (index + 1)
      (show col < dims.colsOf gCols rank + 2 by omega) with
  | kept unreached cell =>
      rcases edge with rfl | rfl
      · rcases Nat.eq_zero_or_pos (dims.pcol rank) with first | inner
        · have offset : dims.colOffset gCols rank = 0 := by
            rw [colOffset, first, offsetBefore, Nat.zero_mul]
          rw [target_left_edge offset]
          exact cell.left offset _ _ firstRow lastRow rfl
        · obtain ⟨source, beside⟩ := dims.exists_left inner
          exact absurd (.right even beside lastRow) (unreached source index _)
      · rcases Nat.lt_or_eq_of_le (Nat.succ_le_of_lt (dims.pcol_lt rank)) with inner | last
        · obtain ⟨source, beside⟩ := dims.exists_right inner
          exact absurd (.left even beside lastRow) (unreached source index _)
        · rw [target_right_edge last]
          exact cell.right last _ _ firstRow lastRow rfl
  | left _ _ _ _ _ _ _ carried => exact carried
  | right _ _ source beside _ _ _ carried =>
      have inner : dims.pcol rank + 1 < dims.pcols := beside.2 ▸ dims.pcol_lt source
      exact carried (by rw [colsOf, beside.2]; exact lengthOf_succ_pos inner cols)
  | above odd => omega
  | below odd => omega

/-- After the second phase, the halo rows of a patch that is not empty hold the
current generation, corners included. -/
theorem Exchanged.capped (exchanged : dims.Exchanged gRows gCols ntimes grid phase rank mem)
    (inTime : phase < 2 * ntimes) (odd : phase % 2 = 1) (rows : 1 ≤ dims.rowsOf gRows rank)
    (cols : 1 ≤ dims.colsOf gCols rank) {row col : ℕ}
    (inRow : col < dims.colsOf gCols rank + 2)
    (edge : row = 0 ∨ row = dims.rowsOf gRows rank + 1) :
    mem (entry (dims.colsOf gCols rank) (matrixAt (phase / 2)) row col) =
      dims.target gRows gCols grid (phase / 2) rank row col := by
  cases exchanged.holds inTime (matrixAt (phase / 2)) row inRow with
  | kept unreached cell =>
      rcases edge with rfl | rfl
      · rcases Nat.eq_zero_or_pos (dims.prow rank) with first | inner
        · have offset : dims.rowOffset gRows rank = 0 := by
            rw [rowOffset, first, offsetBefore, Nat.zero_mul]
          rw [target_top_edge offset]
          exact cell.top offset cols _ col inRow rfl
        · obtain ⟨source, under⟩ := dims.exists_top inner
          exact absurd (.down odd under inRow) (unreached source col _)
      · rcases Nat.lt_or_eq_of_le (Nat.succ_le_of_lt (dims.prow_lt rank)) with inner | last
        · obtain ⟨source, under⟩ := dims.exists_bottom inner
          exact absurd (.up odd under inRow) (unreached source col _)
        · rw [target_bottom_edge last]
          exact cell.bottom last _ col inRow rfl
  | left even => omega
  | right even => omega
  | above _ _ _ _ _ carried => exact carried cols
  | below _ _ source under _ carried =>
      have inner : dims.prow rank + 1 < dims.prows := under.1 ▸ dims.prow_lt source
      exact carried cols (by rw [rowsOf, under.1]; exact lengthOf_succ_pos inner rows)

/-- After the second phase, a patch that is not empty sees the current generation in
its whole halo. -/
theorem Exchanged.view (exchanged : dims.Exchanged gRows gCols ntimes grid phase rank mem)
    (inTime : phase < 2 * ntimes) (odd : phase % 2 = 1) (rows : 1 ≤ dims.rowsOf gRows rank)
    (cols : 1 ≤ dims.colsOf gCols rank) {row col : ℕ}
    (inRows : row ≤ dims.rowsOf gRows rank + 1) (inCols : col ≤ dims.colsOf gCols rank + 1) :
    Life.view (dims.colsOf gCols rank) (matrixAt (phase / 2)) mem row col =
      dims.target gRows gCols grid (phase / 2) rank row col := by
  by_cases edge : row = 0 ∨ row = dims.rowsOf gRows rank + 1
  · exact exchanged.capped inTime odd rows cols (by omega) edge
  · cases exchanged.holds inTime (matrixAt (phase / 2)) row
        (show col < dims.colsOf gCols rank + 2 by omega) with
    | kept _ cell =>
        by_cases side : col = 0 ∨ col = dims.colsOf gCols rank + 1
        · exact cell.sides odd cols row col (by omega) (by omega) side rfl
        · exact cell.interior row col ⟨by omega, by omega⟩ rfl
    | left even => omega
    | right even => omega
    | above => omega
    | below => omega

/-- An exchange stores nothing to the interior. -/
theorem interior_untargeted {row col : ℕ}
    (inside : Inside (dims.rowsOf gRows rank) (dims.colsOf gCols rank) row col)
    {buffer : Buffer} {source : Fin nprocs} {index : ℕ} {origin : Addr} :
    ¬ dims.Moves gRows gCols phase source rank index origin
      (entry (dims.colsOf gCols rank) buffer row col) := by
  intro moves
  have ⟨⟨firstRow, lastRow⟩, firstCol, lastCol⟩ := inside
  generalize same : entry (dims.colsOf gCols rank) buffer row col = place at moves
  cases moves with
  | left | right =>
      rw [entry_inj (by omega) (by omega)] at same
      omega
  | up _ _ inRow | down _ _ inRow =>
      rw [entry_inj (by omega) inRow] at same
      omega

theorem Exchanged.interior (exchanged : dims.Exchanged gRows gCols ntimes grid phase rank mem)
    (inTime : phase < 2 * ntimes) {row col : ℕ}
    (inside : Inside (dims.rowsOf gRows rank) (dims.colsOf gCols rank) row col) :
    mem (entry (dims.colsOf gCols rank) (matrixAt (phase / 2)) row col) =
      dims.target gRows gCols grid (phase / 2) rank row col := by
  have ⟨⟨firstRow, lastRow⟩, firstCol, lastCol⟩ := inside
  cases exchanged.holds inTime (matrixAt (phase / 2)) row
      (show col < dims.colsOf gCols rank + 2 by omega) with
  | kept _ cell => exact cell.interior row col inside rfl
  | left => omega
  | right => omega
  | above => omega
  | below => omega

/-- What an exchange stores beside the first columns is dead. -/
theorem Exchanged.left_dead (exchanged : dims.Exchanged gRows gCols ntimes grid phase rank mem)
    (inTime : phase < 2 * ntimes) (first : dims.colOffset gCols rank = 0) (buffer : Buffer)
    {row : ℕ} (firstRow : 1 ≤ row) (lastRow : row ≤ dims.rowsOf gRows rank) :
    mem (entry (dims.colsOf gCols rank) buffer row 0) = dies := by
  cases exchanged.holds inTime buffer row (show 0 < dims.colsOf gCols rank + 2 by omega) with
  | kept _ cell => exact cell.left first buffer row firstRow lastRow rfl
  | left _ _ _ _ _ _ _ carried => rw [carried, target_left_edge first]
  | right => omega
  | above => omega
  | below => omega

theorem Exchanged.right_dead (exchanged : dims.Exchanged gRows gCols ntimes grid phase rank mem)
    (inTime : phase < 2 * ntimes) (last : dims.pcol rank + 1 = dims.pcols) (buffer : Buffer)
    {row : ℕ} (firstRow : 1 ≤ row) (lastRow : row ≤ dims.rowsOf gRows rank) :
    mem (entry (dims.colsOf gCols rank) buffer row (dims.colsOf gCols rank + 1)) = dies := by
  cases exchanged.holds inTime buffer row
      (show dims.colsOf gCols rank + 1 < dims.colsOf gCols rank + 2 by omega) with
  | kept _ cell => exact cell.right last buffer row firstRow lastRow rfl
  | left => omega
  | right _ _ source beside =>
      have inside := dims.pcol_lt source
      rw [beside.2] at inside
      omega
  | above => omega
  | below => omega

theorem Exchanged.top_dead (exchanged : dims.Exchanged gRows gCols ntimes grid phase rank mem)
    (inTime : phase < 2 * ntimes) (first : dims.rowOffset gRows rank = 0)
    (cols : 1 ≤ dims.colsOf gCols rank) (buffer : Buffer) {col : ℕ}
    (inRow : col < dims.colsOf gCols rank + 2) :
    mem (entry (dims.colsOf gCols rank) buffer 0 col) = dies := by
  cases exchanged.holds inTime buffer 0 inRow with
  | kept _ cell => exact cell.top first cols buffer col inRow rfl
  | left => omega
  | right => omega
  | above _ _ _ _ _ carried => rw [carried cols, target_top_edge first]
  | below => omega

theorem Exchanged.bottom_dead (exchanged : dims.Exchanged gRows gCols ntimes grid phase rank mem)
    (inTime : phase < 2 * ntimes) (last : dims.prow rank + 1 = dims.prows) (buffer : Buffer)
    {col : ℕ} (inRow : col < dims.colsOf gCols rank + 2) :
    mem (entry (dims.colsOf gCols rank) buffer (dims.rowsOf gRows rank + 1) col) = dies := by
  cases exchanged.holds inTime buffer (dims.rowsOf gRows rank + 1) inRow with
  | kept _ cell => exact cell.bottom last buffer col inRow rfl
  | left => omega
  | right => omega
  | above => omega
  | below _ _ source under =>
      have inside := dims.prow_lt source
      rw [under.1] at inside
      omega

/-- The first exchange takes the outline to the second phase. -/
theorem Exchanged.beside_cell (exchanged : dims.Exchanged gRows gCols ntimes grid phase rank mem)
    (inTime : phase < 2 * ntimes) (even : phase % 2 = 0) (address : Addr) :
    dims.PatchCell gRows gCols grid (phase + 1) rank address (mem address) := by
  have same : (phase + 1) / 2 = phase / 2 := by omega
  constructor
  case interior =>
    rintro row col inside rfl
    rw [same]
    exact exchanged.interior inTime inside
  case sides =>
    rintro _ cols row col firstRow lastRow edge rfl
    rw [same]
    exact exchanged.beside inTime even cols firstRow lastRow edge
  case left =>
    rintro first buffer row firstRow lastRow rfl
    exact exchanged.left_dead inTime first buffer firstRow lastRow
  case right =>
    rintro last buffer row firstRow lastRow rfl
    exact exchanged.right_dead inTime last buffer firstRow lastRow
  case top =>
    rintro first cols buffer col inRow rfl
    exact exchanged.top_dead inTime first cols buffer inRow
  case bottom =>
    rintro last buffer col inRow rfl
    exact exchanged.bottom_dead inTime last buffer inRow

/-- The second exchange and the calculation take the outline to the next iteration. -/
theorem Exchanged.calculate_cell
    (exchanged : dims.Exchanged gRows gCols ntimes grid phase rank mem)
    (inTime : phase < 2 * ntimes) (odd : phase % 2 = 1) (address : Addr) :
    dims.PatchCell gRows gCols grid (phase + 1) rank address
      (dims.calculate gRows gCols (phase / 2) rank mem address) := by
  have next : (phase + 1) / 2 = phase / 2 + 1 := by omega
  rw [calculate_eq]
  constructor
  case interior =>
    rintro row col inside rfl
    have ⟨⟨firstRow, lastRow⟩, firstCol, lastCol⟩ := inside
    rw [next, matrixAt]
    refine (sweep_interior (Buffer.swap_ne _) inside mem).trans ?_
    refine nextstate_generation firstRow firstCol (inside_mesh inside) fun i j _ lastI _ lastJ => ?_
    exact exchanged.view inTime odd (by omega) (by omega) (by omega) (by omega)
  case sides => omega
  case left =>
    rintro first buffer row firstRow lastRow rfl
    rw [sweep_outside (by omega) (by unfold Inside; omega)]
    exact exchanged.left_dead inTime first buffer firstRow lastRow
  case right =>
    rintro last buffer row firstRow lastRow rfl
    rw [sweep_outside (by omega) (by unfold Inside; omega)]
    exact exchanged.right_dead inTime last buffer firstRow lastRow
  case top =>
    rintro first cols buffer col inRow rfl
    rw [sweep_outside inRow (by unfold Inside; omega)]
    exact exchanged.top_dead inTime first cols buffer inRow
  case bottom =>
    rintro last buffer col inRow rfl
    rw [sweep_outside inRow (by unfold Inside; omega)]
    exact exchanged.bottom_dead inTime last buffer inRow

end Update

/-! ### The outline -/

variable (dims gRows gCols ntimes grid) in
/-- The outline of Life on a mesh of patches. -/
def patchesOutline : Exchange.Outline (dims.patches gRows gCols ntimes) where
  Cell phase rank address value :=
    phase ≤ 2 * ntimes → dims.PatchCell gRows gCols grid phase rank address value
  Element := dims.PatchElement gRows gCols grid
  send listed holds :=
    have ⟨inTime, moves⟩ := patches_listed.mp listed
    patch_send moves (holds inTime.le)
  relay targets listed holds :=
    have ⟨_, arrived⟩ := targets
    patch_relay (patches_listed.mp arrived).2 (patches_listed.mp listed).2 holds
  update := by
    intro phase rank mem completed address inTime
    have exchanged : dims.Exchanged gRows gCols ntimes grid phase rank mem := fun address =>
      (completed address).imp_right (And.imp_right fun holds => holds (Nat.le_of_succ_le inTime))
    show dims.PatchCell gRows gCols grid (phase + 1) rank address
      (dims.update gRows gCols phase rank mem address)
    unfold update
    split
    · next even => exact exchanged.beside_cell inTime even address
    · next odd => exact exchanged.calculate_cell inTime (by omega) address

/-- The initial matrices of the ranks: boundaries dead, the patches of `grid` split by
`MLIFE_MeshDecomp`, and anything else in the rest of the allocations. -/
def InitialPatches (dims : Dims nprocs) (gRows gCols : ℕ) (grid : Grid)
    (mem : Fin nprocs → Mem) : Prop :=
  ∀ rank, ∃ allocated,
    let patch := dims.meshDecomp gRows gCols rank
    mem rank = initialise patch.lRows patch.lCols
      (fun i j => cell (grid (i + patch.gFirstRow - 1) (j + patch.gFirstCol - 1))) allocated

theorem InitialPatches.cell {mem : Fin nprocs → Mem}
    (initial : dims.InitialPatches gRows gCols grid mem) (rank : Fin nprocs) (address : Addr) :
    dims.PatchCell gRows gCols grid 0 rank address (mem rank address) := by
  obtain ⟨allocated, same⟩ := initial rank
  have boundary : ∀ {buffer row col}, row ≤ dims.rowsOf gRows rank + 1 →
      col ≤ dims.colsOf gCols rank + 1 →
      (row = 0 ∨ row = dims.rowsOf gRows rank + 1) ∨
        col = 0 ∨ col = dims.colsOf gCols rank + 1 →
      mem rank (entry (dims.colsOf gCols rank) buffer row col) = dies := by
    intro buffer row col inRows inCols edge
    rw [same]
    exact initialise_boundary inRows inCols edge _ _ _
  constructor
  case interior =>
    rintro row col inside rfl
    rw [same, target, Grid.generation, Grid.restrict_inside (inside_mesh inside)]
    rw [dims.rowOffset_add gRows gCols, dims.colOffset_add gRows gCols]
    exact initialise_interior inside _ _
  case sides => omega
  case left =>
    rintro _ buffer row _ _ rfl
    exact boundary (by omega) (by omega) (by omega)
  case right =>
    rintro _ buffer row _ _ rfl
    exact boundary (by omega) (by omega) (by omega)
  case top =>
    rintro _ _ buffer col _ rfl
    exact boundary (by omega) (by omega) (by omega)
  case bottom =>
    rintro _ buffer col _ rfl
    exact boundary (by omega) (by omega) (by omega)

end HandsOn.Life.Dims
