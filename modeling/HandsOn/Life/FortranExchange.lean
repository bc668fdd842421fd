import HandsOn.Life.FortranGenerations
import HandsOn.Mpi.Neighbours

/-!
# The exchanges of Life in Fortran

`MLIFE_exchange` of `mlife2df-pt2pt.f` and `mlife2df-fence.f`. First the rows at the top and the
bottom of a patch move, without their ends; then the columns at its left and right, with the
diagonal elements that the first transfers have brought. Between two exchanges each process
calculates a generation. Arrays are stored column after column, with `MaxLRows` elements in each.
-/

namespace HandsOn.Life.Fortran

open Mpi Semantics.Fortran

/-- `MaxLRows` -/
def maxLRows : ℕ := 100

/-- Where the element in row `row` and column `col` lies, both counted from zero. -/
def place (buffer : Buffer) (row col : ℕ) : Addr := (buffer, col * maxLRows + row)

/-- An array in the memory of a process; `matrix` is `mdata`, `matrix2` is `tdata`. -/
def arrayIn (buffer : Buffer) (mem : Mem) : Array2 := fun row col => mem (place buffer row col)

/-- An array replaced in the memory of a process. -/
def setArray (buffer : Buffer) (array : Array2) (mem : Mem) : Mem := fun address =>
  if address.1 = buffer then array (address.2 % maxLRows) (address.2 / maxLRows) else mem address

/-- One element of the type `vectype` at column one: a row of a patch. -/
def rowPlaces (lCols k row : ℕ) : List Addr :=
  strided (place (matrixAt k) row 1) lCols maxLRows

/-- `LRows + 2` integers: a column of a patch with its ends. -/
def colPlaces (lRows k col : ℕ) : List Addr :=
  consecutive (place (matrixAt k) 0 col) (lRows + 2)

theorem rowPlaces_eq (lCols k row : ℕ) :
    rowPlaces lCols k row = strided (matrixAt k, maxLRows + row) lCols maxLRows := by
  rw [rowPlaces, place, Nat.one_mul]

theorem colPlaces_eq (lRows k col : ℕ) :
    colPlaces lRows k col = consecutive (matrixAt k, maxLRows * col) (lRows + 2) := by
  rw [colPlaces, place, Nat.mul_comm, Nat.add_zero]

section Programs

variable {nprocs : ℕ} (dims : Dims nprocs) (gRows gCols calls : ℕ)

/-- The loops after call `k` of `MLIFE_exchange`, in the memory of a process. A subscript out of
bounds would end the program. -/
def calculateIn (k : ℕ) (rank : Fin nprocs) (mem : Mem) : Mem :=
  let ⟨_, _, _, _, lRows, lCols, _, _⟩ := dims.meshDecomp gRows gCols rank
  match fromOne.fill 2 (lRows + 1) 2 (lCols + 1) (mlifeNextstate (arrayIn (matrixAt k) mem))
    (arrayIn (tempAt k) mem) with
  | .ok array => setArray (tempAt k) array mem
  | .error _ => mem

/-- What a process computes after each of the two phases of a call. -/
def update (phase : ℕ) (rank : Fin nprocs) : Mem → Mem :=
  if phase % 2 = 0 then id else calculateIn dims gRows gCols (phase / 2) rank

/-- `MLIFE_exchange` of `mlife2df-pt2pt.f` -/
def pt2pt : PointToPoint.Program (Fin nprocs) Addr Int where
  phases := 2 * calls
  calls phase rank :=
    let k := phase / 2
    let ⟨left, right, above, below, lRows, lCols, _, _⟩ := dims.meshDecomp gRows gCols rank
    if phase % 2 = 0 then
      [.isend (rowPlaces lCols k 1) above,
        .irecv (rowPlaces lCols k 0) above,
        .isend (rowPlaces lCols k lRows) below,
        .irecv (rowPlaces lCols k (lRows + 1)) below]
    else
      [.isend (colPlaces lRows k 1) left,
        .irecv (colPlaces lRows k 0) left,
        .isend (colPlaces lRows k lCols) right,
        .irecv (colPlaces lRows k (lCols + 1)) right]
  update := update dims gRows gCols

/-- The `MPI_Put` calls of `MLIFE_exchange` of `mlife2df-fence.f`, between its first two fences and
between its last two. -/
def puts (phase : ℕ) (rank : Fin nprocs) : List (OneSided.Put (Fin nprocs) Addr) :=
  let k := phase / 2
  let ⟨left, right, above, below, lRows, lCols, _, _⟩ := dims.meshDecomp gRows gCols rank
  let aboveLRows := dims.ofNeighbour gRows gCols Decomp.lRows above
  let leftLCols := dims.ofNeighbour gRows gCols Decomp.lCols left
  if phase % 2 = 0 then
    [⟨rowPlaces lCols k 1, above,
        strided (matrixAt k, maxLRows + (aboveLRows + 1)) lCols maxLRows⟩,
      ⟨rowPlaces lCols k lRows, below, strided (matrixAt k, maxLRows) lCols maxLRows⟩]
  else
    [⟨colPlaces lRows k 1, left,
        consecutive (matrixAt k, maxLRows * (leftLCols + 1)) (lRows + 2)⟩,
      ⟨colPlaces lRows k lCols, right, consecutive (matrixAt k, 0) (lRows + 2)⟩]

/-- `MLIFE_exchange` of `mlife2df-fence.f`; parity one is for the window of `matrix`. -/
def fence : OneSided.Program Buffer (Fin nprocs) Addr Int where
  phases := 2 * calls
  window phase := matrixAt (phase / 2)
  group phase := OneSided.fenceGroup (List.finRange nprocs) (puts dims gRows gCols phase)
  puts := puts dims gRows gCols
  update := update dims gRows gCols

/-! ### Exchanges with the neighbours -/

def vertical : Neighbours (Fin nprocs) where
  before := dims.top
  after := dims.bottom
  after_eq_some := dims.bottom_eq_some.trans dims.top_eq_some.symm
  asymm above below :=
    dims.below_asymm _ _ (dims.top_eq_some.mp above) (dims.top_eq_some.mp below)

def horizontal : Neighbours (Fin nprocs) where
  before := dims.left
  after := dims.right
  after_eq_some := dims.right_eq_some.trans dims.left_eq_some.symm
  asymm left right :=
    dims.rightOf_asymm _ _ (dims.left_eq_some.mp left) (dims.left_eq_some.mp right)

/-- The rows that a call moves. -/
def rowEdges (k : ℕ) : Edges (Fin nprocs) Addr where
  toBefore rank := rowPlaces (dims.colsOf gCols rank) k 1
  fromBefore rank := rowPlaces (dims.colsOf gCols rank) k 0
  toAfter rank := rowPlaces (dims.colsOf gCols rank) k (dims.rowsOf gRows rank)
  fromAfter rank := rowPlaces (dims.colsOf gCols rank) k (dims.rowsOf gRows rank + 1)

/-- The columns that a call moves. -/
def colEdges (k : ℕ) : Edges (Fin nprocs) Addr where
  toBefore rank := colPlaces (dims.rowsOf gRows rank) k 1
  fromBefore rank := colPlaces (dims.rowsOf gRows rank) k 0
  toAfter rank := colPlaces (dims.rowsOf gRows rank) k (dims.colsOf gCols rank)
  fromAfter rank := colPlaces (dims.rowsOf gRows rank) k (dims.colsOf gCols rank + 1)

/-- Rows in the first phase of a call, columns in the second. -/
def halo : Halo (Fin nprocs) Addr Int where
  phases := 2 * calls
  neighbours phase := if phase % 2 = 0 then vertical dims else horizontal dims
  edges phase :=
    if phase % 2 = 0 then rowEdges dims gRows gCols (phase / 2)
    else colEdges dims gRows gCols (phase / 2)
  update := update dims gRows gCols

theorem pt2pt_eq : pt2pt dims gRows gCols calls = (halo dims gRows gCols calls).pt2pt := by
  unfold pt2pt Halo.pt2pt
  congr 1
  ext1 phase
  ext1 rank
  rcases Nat.mod_two_eq_zero_or_one phase with even | odd
  · simp only [halo, if_pos even]
    rfl
  · simp only [halo, odd]
    rfl

/-- The displacements of a call are those of the neighbours' halos. -/
theorem elementsTo_puts (phase : ℕ) (source dest : Fin nprocs) :
    OneSided.elementsTo (puts dims gRows gCols phase source) dest =
      ((halo dims gRows gCols calls).neighbours phase).transfers
        ((halo dims gRows gCols calls).edges phase) source dest := by
  rcases Nat.mod_two_eq_zero_or_one phase with even | odd
  · simp only [puts, halo, if_pos even]
    refine (vertical dims).elementsTo_puts (rowEdges dims gRows gCols (phase / 2)) ?_ ?_ dest
    · intro other above
      have under := dims.top_eq_some.mp above
      change strided (_, maxLRows +
        (dims.ofNeighbour gRows gCols Decomp.lRows (dims.top source) + 1))
        (dims.colsOf gCols source) maxLRows =
          rowPlaces (dims.colsOf gCols other) (phase / 2) (dims.rowsOf gRows other + 1)
      rw [rowPlaces_eq, dims.top_eq_some.mpr under, dims.colsOf_eq gCols under]
      rfl
    · intro other below
      have under := dims.bottom_eq_some.mp below
      change strided (_, maxLRows) (dims.colsOf gCols source) maxLRows =
        rowPlaces (dims.colsOf gCols other) (phase / 2) 0
      rw [rowPlaces_eq, Nat.add_zero, dims.colsOf_eq gCols under]
  · simp only [puts, halo, odd]
    refine (horizontal dims).elementsTo_puts (colEdges dims gRows gCols (phase / 2)) ?_ ?_ dest
    · intro other left
      have beside := dims.left_eq_some.mp left
      change consecutive (_, maxLRows *
        (dims.ofNeighbour gRows gCols Decomp.lCols (dims.left source) + 1))
        (dims.rowsOf gRows source + 2) =
          colPlaces (dims.rowsOf gRows other) (phase / 2) (dims.colsOf gCols other + 1)
      rw [colPlaces_eq, dims.left_eq_some.mpr beside, dims.rowsOf_eq gRows beside]
      rfl
    · intro other right
      have beside := dims.right_eq_some.mp right
      change consecutive (_, 0) (dims.rowsOf gRows source + 2) =
        colPlaces (dims.rowsOf gRows other) (phase / 2) 0
      rw [colPlaces_eq, Nat.mul_zero, dims.rowsOf_eq gRows beside]

theorem fence_matched : (fence dims gRows gCols calls).Matched :=
  Halo.fence_matched List.mem_finRange fun _ => rfl

theorem fence_exchange :
    (fence dims gRows gCols calls).exchange = (halo dims gRows gCols calls).exchange :=
  Halo.fence_exchange rfl rfl (elementsTo_puts dims gRows gCols calls)

/-! ### Separate edges -/

variable {dims gRows gCols calls}

theorem place_inj {buffer buffer' : Buffer} {row col row' col' : ℕ} (inRows : row < maxLRows)
    (inRows' : row' < maxLRows) :
    place buffer row col = place buffer' row' col' ↔
      buffer = buffer' ∧ row = row' ∧ col = col' := by
  rw [and_comm (a := row = row')]
  exact entry_inj (show row < 98 + 2 from inRows) (show row' < 98 + 2 from inRows')

theorem rowPlaces_getElem? {lCols k row index : ℕ} {address : Addr} :
    (rowPlaces lCols k row)[index]? = some address ↔
      index < lCols ∧ address = place (matrixAt k) row (index + 1) := by
  have next : place (matrixAt k) row (index + 1) =
      (matrixAt k, maxLRows + row + index * maxLRows) := by
    rw [place, Nat.succ_mul, Nat.add_assoc, Nat.add_comm]
  rw [List.getElem?_eq_some_iff]
  simp only [rowPlaces_eq, strided, List.length_map, List.length_range, List.getElem_map,
    List.getElem_range, exists_prop, next, eq_comm]

theorem colPlaces_getElem? {lRows k col index : ℕ} {address : Addr} :
    (colPlaces lRows k col)[index]? = some address ↔
      index < lRows + 2 ∧ address = place (matrixAt k) index col := by
  rw [List.getElem?_eq_some_iff]
  simp only [colPlaces, consecutive, place, Nat.add_zero, List.length_map, List.length_range,
    List.getElem_map, List.getElem_range, exists_prop, eq_comm]

theorem mem_rowPlaces {lCols k row : ℕ} {address : Addr} :
    address ∈ rowPlaces lCols k row ↔
      ∃ col, (1 ≤ col ∧ col ≤ lCols) ∧ address = place (matrixAt k) row col := by
  rw [List.mem_iff_getElem?]
  simp only [rowPlaces_getElem?]
  constructor
  · rintro ⟨index, inside, rfl⟩
    exact ⟨index + 1, ⟨by omega, inside⟩, rfl⟩
  · rintro ⟨col, ⟨first, last⟩, rfl⟩
    refine ⟨col - 1, by omega, ?_⟩
    rw [Nat.sub_add_cancel first]

theorem mem_colPlaces {lRows k col : ℕ} {address : Addr} :
    address ∈ colPlaces lRows k col ↔
      ∃ row ≤ lRows + 1, address = place (matrixAt k) row col := by
  rw [List.mem_iff_getElem?]
  simp only [colPlaces_getElem?, Nat.lt_succ_iff]

theorem nodup_rowPlaces (lCols k row : ℕ) : (rowPlaces lCols k row).Nodup := by
  refine List.Nodup.map (fun i j same => ?_) List.nodup_range
  have offsets := (Prod.mk.inj same).2
  simp only [maxLRows] at offsets
  omega

theorem nodup_colPlaces (lRows k col : ℕ) : (colPlaces lRows k col).Nodup :=
  List.Nodup.map (fun _ _ same => Nat.add_left_cancel (Prod.mk.inj same).2) List.nodup_range

theorem rowPlaces_apart {lCols k row row' : ℕ} {address : Addr} (inRows : row < maxLRows)
    (inRows' : row' < maxLRows) (apart : row ≠ row') (inside : address ∈ rowPlaces lCols k row) :
    address ∉ rowPlaces lCols k row' := by
  intro inside'
  obtain ⟨_, _, rfl⟩ := mem_rowPlaces.mp inside
  obtain ⟨_, _, same⟩ := mem_rowPlaces.mp inside'
  exact apart ((place_inj inRows inRows').mp same).2.1

theorem colPlaces_apart {lRows k col col' : ℕ} {address : Addr} (inRows : lRows + 1 < maxLRows)
    (apart : col ≠ col') (inside : address ∈ colPlaces lRows k col) :
    address ∉ colPlaces lRows k col' := by
  intro inside'
  obtain ⟨_, within, rfl⟩ := mem_colPlaces.mp inside
  obtain ⟨_, within', same⟩ := mem_colPlaces.mp inside'
  exact apart ((place_inj (Nat.lt_of_le_of_lt within inRows)
    (Nat.lt_of_le_of_lt within' inRows)).mp same).2.2

/-- The halo of a patch is in the arrays. -/
theorem AllFit.lt_maxLRows (fits : AllFit dims gRows gCols) (rank : Fin nprocs) {row : ℕ}
    (within : row ≤ dims.rowsOf gRows rank + 1) : row < maxLRows := by
  have inRows := (fits rank).rows_le
  exact show row < 100 by omega

theorem rowEdges_separate (fits : AllFit dims gRows gCols) (k : ℕ) :
    (rowEdges dims gRows gCols k).Separate where
  sent rank address sent := by
    have two := (fits rank).two_le
    have inArray : ∀ {row}, row ≤ dims.rowsOf gRows rank + 1 → row < maxLRows :=
      fits.lt_maxLRows rank
    rcases sent with first | last
    · exact ⟨rowPlaces_apart (inArray (by omega)) (inArray (Nat.zero_le _)) (by omega) first,
        rowPlaces_apart (inArray (by omega)) (inArray (Nat.le_refl _)) (by omega) first⟩
    · exact ⟨rowPlaces_apart (inArray (Nat.le_succ _)) (inArray (Nat.zero_le _)) (by omega) last,
        rowPlaces_apart (inArray (Nat.le_succ _)) (inArray (Nat.le_refl _)) (by omega) last⟩
  received rank address inside :=
    rowPlaces_apart (fits.lt_maxLRows rank (Nat.zero_le _))
      (fits.lt_maxLRows rank (Nat.le_refl _)) (by omega) inside
  before rank := nodup_rowPlaces _ _ _
  after rank := nodup_rowPlaces _ _ _

/-- No patch is without columns. -/
def AllWide (dims : Dims nprocs) (gCols : ℕ) : Prop := ∀ rank, 1 ≤ dims.colsOf gCols rank

theorem colEdges_separate (fits : AllFit dims gRows gCols) (wide : AllWide dims gCols) (k : ℕ) :
    (colEdges dims gRows gCols k).Separate where
  sent rank address sent := by
    have inRows := fits.lt_maxLRows rank (Nat.le_refl (dims.rowsOf gRows rank + 1))
    have some' := wide rank
    rcases sent with first | last
    · exact ⟨colPlaces_apart inRows (by omega) first, colPlaces_apart inRows (by omega) first⟩
    · exact ⟨colPlaces_apart inRows (by omega) last, colPlaces_apart inRows (by omega) last⟩
  received rank address inside :=
    colPlaces_apart (fits.lt_maxLRows rank (Nat.le_refl _)) (by omega) inside
  before rank := nodup_colPlaces _ _ _
  after rank := nodup_colPlaces _ _ _

/-- No call receives where it sends from. -/
theorem halo_separate (fits : AllFit dims gRows gCols) (wide : AllWide dims gCols) (phase : ℕ) :
    (halo dims gRows gCols calls).exchange.Separate phase := by
  refine Halo.separate (fun phase => ?_) phase
  simp only [halo]
  split
  · exact rowEdges_separate fits _
  · exact colEdges_separate fits wide _

theorem rowEdges_sized (k : ℕ) : (rowEdges dims gRows gCols k).Sized (vertical dims) := by
  have same : ∀ {rank other}, (vertical dims).before rank = some other →
      dims.colsOf gCols rank = dims.colsOf gCols other :=
    fun above => dims.colsOf_eq gCols (dims.top_eq_some.mp above)
  constructor
  · intro rank other above
    simp only [rowEdges, rowPlaces, strided, List.length_map, List.length_range, same above]
  · intro rank other above
    simp only [rowEdges, rowPlaces, strided, List.length_map, List.length_range, same above]

theorem colEdges_sized (k : ℕ) : (colEdges dims gRows gCols k).Sized (horizontal dims) := by
  have same : ∀ {rank other}, (horizontal dims).before rank = some other →
      dims.rowsOf gRows rank = dims.rowsOf gRows other :=
    fun left => dims.rowsOf_eq gRows (dims.left_eq_some.mp left)
  constructor
  · intro rank other left
    simp only [colEdges, colPlaces, consecutive, List.length_map, List.length_range, same left]
  · intro rank other left
    simp only [colEdges, colPlaces, consecutive, List.length_map, List.length_range, same left]

/-- Neighbours have as many columns or rows. -/
theorem halo_sized (phase : ℕ) : ((halo dims gRows gCols calls).edges phase).Sized
    ((halo dims gRows gCols calls).neighbours phase) := by
  simp only [halo]
  split
  · exact rowEdges_sized _
  · exact colEdges_sized _

end Programs

end HandsOn.Life.Fortran
