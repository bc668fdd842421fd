import Mathlib.Data.List.FinRange
import Mathlib.Data.Nat.Find
import HandsOn.Life.Patch
import HandsOn.Mpi.OneSided
import HandsOn.Mpi.PointToPoint

/-!
# Life distributed by patches of a mesh

`life` with its block-block distribution and its two exchanges of edges:
point-to-point and fence. One iteration is two phases: first the left and right
edges move, then the top and bottom edges, which carry the corners. The new state
is calculated and the matrices are swapped after the second. Both exchanges
transfer the same elements.
-/

namespace HandsOn.Life

open HandsOn.Mpi

/-- The process grid returned by `MPI_Dims_create`. -/
structure Dims (nprocs : ℕ) where
  prows : ℕ
  pcols : ℕ
  product : prows * pcols = nprocs

/-- What `MLIFE_MeshDecomp` returns; the neighbour `none` is `MPI_PROC_NULL`. -/
structure Decomp (nprocs : ℕ) where
  left : Option (Fin nprocs)
  right : Option (Fin nprocs)
  top : Option (Fin nprocs)
  bottom : Option (Fin nprocs)
  lRows : ℕ
  lCols : ℕ
  gFirstRow : ℕ
  gFirstCol : ℕ

/-- `firstcol` and `firstrow`: where part `part` of `parts` begins. -/
def firstOf (size parts part : ℕ) : ℕ := 1 + part * (size / parts)

/-- `lastcol` and `lastrow`: where part `part` of `parts` ends; the last part takes
the remainder. -/
def lastOf (size parts part : ℕ) : ℕ :=
  if part = parts - 1 then size else 1 + (part + 1) * (size / parts) - 1

/-- The length of a part. -/
def lengthOf (size parts part : ℕ) : ℕ := lastOf size parts part + 1 - firstOf size parts part

/-- What lies before a part. -/
def offsetBefore (size parts part : ℕ) : ℕ := part * (size / parts)

theorem firstOf_eq (size parts part : ℕ) :
    firstOf size parts part = offsetBefore size parts part + 1 :=
  Nat.add_comm _ _

theorem lengthOf_inner {size parts part : ℕ} (inner : part + 1 < parts) :
    lengthOf size parts part = size / parts := by
  rw [lengthOf, lastOf, if_neg (by omega), firstOf, Nat.succ_mul]
  generalize size / parts = block
  omega

/-- Each part ends where the next begins. -/
theorem offsetBefore_succ (size : ℕ) {parts part : ℕ} (inner : part + 1 < parts) :
    offsetBefore size parts (part + 1) =
      offsetBefore size parts part + lengthOf size parts part := by
  rw [lengthOf_inner inner, offsetBefore, Nat.succ_mul, offsetBefore]

theorem offsetBefore_le (size : ℕ) {parts part : ℕ} (inside : part < parts) :
    offsetBefore size parts part ≤ size :=
  (Nat.mul_le_mul_right _ inside.le).trans (Nat.mul_div_le size parts)

/-- The last part ends with the whole. -/
theorem offsetBefore_last (size : ℕ) {parts part : ℕ} (last : part + 1 = parts) :
    offsetBefore size parts part + lengthOf size parts part = size := by
  have within := offsetBefore_le size (show part < parts by omega)
  unfold offsetBefore at within ⊢
  rw [lengthOf, lastOf, if_pos (by omega), firstOf]
  omega

theorem offsetBefore_add_le (size : ℕ) {parts part : ℕ} (inside : part < parts) :
    offsetBefore size parts part + lengthOf size parts part ≤ size := by
  rcases Nat.lt_or_eq_of_le (Nat.succ_le_of_lt inside) with inner | last
  · rw [← offsetBefore_succ size inner]
    exact offsetBefore_le size inner
  · exact (offsetBefore_last size last).le

/-- Only parts at the beginning are empty. -/
theorem offsetBefore_of_empty {size parts part : ℕ} (inside : part < parts)
    (empty : lengthOf size parts part = 0) : offsetBefore size parts part = 0 := by
  rcases Nat.lt_or_eq_of_le (Nat.succ_le_of_lt inside) with inner | last
  · rw [lengthOf_inner inner] at empty
    rw [offsetBefore, empty, Nat.mul_zero]
  · have whole := offsetBefore_last size last
    rw [empty, Nat.add_zero, offsetBefore] at whole
    have blocks := Nat.mul_div_le size parts
    rw [← last, Nat.succ_mul, last] at blocks
    have none : size / parts = 0 := by
      generalize size / parts = block at whole blocks
      omega
    rw [offsetBefore, none, Nat.mul_zero]

/-- A part after one that is not empty is not empty. -/
theorem lengthOf_succ_pos {size parts part : ℕ} (inner : part + 1 < parts)
    (nonempty : 1 ≤ lengthOf size parts part) : 1 ≤ lengthOf size parts (part + 1) := by
  by_contra empty
  have start := offsetBefore_of_empty inner (Nat.eq_zero_of_not_pos empty)
  rw [offsetBefore_succ size inner] at start
  omega

/-- Every position lies in one part. -/
theorem exists_part {size parts position : ℕ} (positive : 0 < parts) (first : 1 ≤ position)
    (last : position ≤ size) : ∃ part < parts, firstOf size parts part ≤ position ∧
      position < firstOf size parts part + lengthOf size parts part := by
  have reached : ∃ part, part < parts ∧
      position < firstOf size parts part + lengthOf size parts part := by
    refine ⟨parts - 1, by omega, ?_⟩
    have whole := offsetBefore_last size (show parts - 1 + 1 = parts by omega)
    rw [offsetBefore] at whole
    rw [firstOf]
    omega
  obtain ⟨inside, ends⟩ := Nat.find_spec reached
  refine ⟨Nat.find reached, inside, ?_, ends⟩
  rcases Nat.eq_zero_or_pos (Nat.find reached) with none | later
  · rw [none, firstOf, Nat.zero_mul]
    exact first
  · by_contra before
    refine Nat.find_min reached (Nat.sub_lt later Nat.one_pos) ⟨by omega, ?_⟩
    have next := offsetBefore_succ size
      (show Nat.find reached - 1 + 1 < parts by omega)
    rw [Nat.sub_add_cancel later, offsetBefore, offsetBefore] at next
    rw [firstOf] at before ⊢
    omega

theorem part_unique {size parts position part part' : ℕ} (inside : part < parts)
    (inside' : part' < parts) (starts : firstOf size parts part ≤ position)
    (ends : position < firstOf size parts part + lengthOf size parts part)
    (starts' : firstOf size parts part' ≤ position)
    (ends' : position < firstOf size parts part' + lengthOf size parts part') :
    part = part' := by
  have apart : ∀ {early late : ℕ}, early < late → late < parts →
      firstOf size parts early + lengthOf size parts early ≤ firstOf size parts late := by
    intro early late ordered inside
    have next := offsetBefore_succ size (show early + 1 < parts by omega)
    have mono : offsetBefore size parts (early + 1) ≤ offsetBefore size parts late :=
      Nat.mul_le_mul_right _ ordered
    rw [offsetBefore, offsetBefore] at next
    rw [offsetBefore, offsetBefore] at mono
    rw [firstOf, firstOf]
    omega
  rcases Nat.lt_trichotomy part part' with earlier | same | later
  · have := apart earlier inside'
    omega
  · exact same
  · have := apart later inside
    omega

namespace Dims

variable {nprocs : ℕ} (dims : Dims nprocs)

def prow (rank : Fin nprocs) : ℕ := rank / dims.pcols

def pcol (rank : Fin nprocs) : ℕ := rank % dims.pcols

theorem pcols_pos (rank : Fin nprocs) : 0 < dims.pcols :=
  Nat.pos_of_ne_zero fun none => by
    have product := dims.product
    rw [none, Nat.mul_zero] at product
    exact absurd rank.isLt (by omega)

theorem prow_lt (rank : Fin nprocs) : dims.prow rank < dims.prows := by
  refine Nat.div_lt_of_lt_mul ?_
  rw [Nat.mul_comm, dims.product]
  exact rank.isLt

theorem pcol_lt (rank : Fin nprocs) : dims.pcol rank < dims.pcols :=
  Nat.mod_lt _ (dims.pcols_pos rank)

/-- Ranks are numbered across the rows. -/
theorem rank_eq (rank : Fin nprocs) :
    rank.val = dims.prow rank * dims.pcols + dims.pcol rank :=
  (Nat.div_add_mod' _ _).symm

theorem rank_ext {first second : Fin nprocs} (row : dims.prow first = dims.prow second)
    (col : dims.pcol first = dims.pcol second) : first = second := by
  rw [Fin.ext_iff, dims.rank_eq first, dims.rank_eq second, row, col]

/-- The rank at some coordinates. -/
theorem some_eq_some (row col : ℕ) {number : ℕ} {inside : number < nprocs} {other : Fin nprocs}
    (inRow : col < dims.pcols) (same : number = row * dims.pcols + col) :
    some (⟨number, inside⟩ : Fin nprocs) = some other ↔
      dims.prow other = row ∧ dims.pcol other = col := by
  have found : dims.prow ⟨number, inside⟩ = row ∧ dims.pcol ⟨number, inside⟩ = col := by
    unfold prow pcol
    simp only [same]
    rw [Nat.add_comm, Nat.add_mul_div_right _ _ (Nat.zero_lt_of_lt inRow),
      Nat.div_eq_of_lt inRow, Nat.zero_add, Nat.add_mul_mod_self_right, Nat.mod_eq_of_lt inRow]
    exact ⟨rfl, rfl⟩
  rw [Option.some.injEq]
  constructor
  · rintro rfl
    exact found
  · rintro ⟨atRow, atCol⟩
    exact dims.rank_ext (found.1.trans atRow.symm) (found.2.trans atCol.symm)

theorem lt_of_coords {row col : ℕ} (inRows : row < dims.prows) (inCols : col < dims.pcols) :
    row * dims.pcols + col < nprocs := by
  have whole : (row + 1) * dims.pcols ≤ dims.prows * dims.pcols :=
    Nat.mul_le_mul_right _ inRows
  rw [dims.product, Nat.succ_mul] at whole
  omega

def left (rank : Fin nprocs) : Option (Fin nprocs) :=
  if dims.pcol rank > 0 then some ⟨rank - 1, Nat.sub_lt_of_lt rank.isLt⟩ else none

def right (rank : Fin nprocs) : Option (Fin nprocs) :=
  if inner : dims.pcol rank < dims.pcols - 1 then
    some ⟨rank + 1, by
      have inside := dims.lt_of_coords (dims.prow_lt rank)
        (show dims.pcol rank + 1 < dims.pcols by omega)
      have here := dims.rank_eq rank
      omega⟩
  else none

def top (rank : Fin nprocs) : Option (Fin nprocs) :=
  if dims.prow rank > 0 then some ⟨rank - dims.pcols, by omega⟩ else none

def bottom (rank : Fin nprocs) : Option (Fin nprocs) :=
  if inner : dims.prow rank < dims.prows - 1 then
    some ⟨rank + dims.pcols, by
      have inside := dims.lt_of_coords (show dims.prow rank + 1 < dims.prows by omega)
        (dims.pcol_lt rank)
      rw [Nat.succ_mul] at inside
      have here := dims.rank_eq rank
      omega⟩
  else none

/-- `MLIFE_MeshDecomp` -/
def meshDecomp (gRows gCols : ℕ) (rank : Fin nprocs) : Decomp nprocs :=
  let firstcol := firstOf gCols dims.pcols (dims.pcol rank)
  let firstrow := firstOf gRows dims.prows (dims.prow rank)
  let lastcol := lastOf gCols dims.pcols (dims.pcol rank)
  let lastrow := lastOf gRows dims.prows (dims.prow rank)
  { left := dims.left rank
    right := dims.right rank
    top := dims.top rank
    bottom := dims.bottom rank
    lRows := lastrow + 1 - firstrow
    lCols := lastcol + 1 - firstcol
    gFirstRow := firstrow
    gFirstCol := firstcol }

/-- `second` lies to the right of `first`. -/
def RightOf (first second : Fin nprocs) : Prop :=
  dims.prow second = dims.prow first ∧ dims.pcol second = dims.pcol first + 1

/-- `second` lies below `first`. -/
def Below (first second : Fin nprocs) : Prop :=
  dims.prow second = dims.prow first + 1 ∧ dims.pcol second = dims.pcol first

instance (first second : Fin nprocs) : Decidable (dims.RightOf first second) :=
  inferInstanceAs (Decidable (_ ∧ _))

instance (first second : Fin nprocs) : Decidable (dims.Below first second) :=
  inferInstanceAs (Decidable (_ ∧ _))

theorem rightOf_asymm (first second : Fin nprocs) :
    dims.RightOf first second → ¬ dims.RightOf second first := by
  unfold RightOf
  omega

theorem below_asymm (first second : Fin nprocs) :
    dims.Below first second → ¬ dims.Below second first := by
  unfold Below
  omega

theorem left_eq_some {rank other : Fin nprocs} :
    dims.left rank = some other ↔ dims.RightOf other rank := by
  have here := dims.rank_eq rank
  have inRow := dims.pcol_lt rank
  unfold left RightOf
  split
  · rw [dims.some_eq_some (dims.prow rank) (dims.pcol rank - 1) (by omega) (by omega)]
    omega
  · simp only [reduceCtorEq, false_iff]
    omega

theorem right_eq_some {rank other : Fin nprocs} :
    dims.right rank = some other ↔ dims.RightOf rank other := by
  have here := dims.rank_eq rank
  have inRow := dims.pcol_lt other
  unfold right RightOf
  split
  · exact dims.some_eq_some _ _ (by omega) (by omega)
  · simp only [reduceCtorEq, false_iff]
    omega

theorem top_eq_some {rank other : Fin nprocs} :
    dims.top rank = some other ↔ dims.Below other rank := by
  have here := dims.rank_eq rank
  unfold top Below
  split
  · next inner =>
      have above : dims.prow rank = dims.prow rank - 1 + 1 := by omega
      rw [above, Nat.succ_mul] at here
      rw [dims.some_eq_some (dims.prow rank - 1) _ (dims.pcol_lt rank) (by omega)]
      omega
  · simp only [reduceCtorEq, false_iff]
    omega

theorem bottom_eq_some {rank other : Fin nprocs} :
    dims.bottom rank = some other ↔ dims.Below rank other := by
  have here := dims.rank_eq rank
  have inRows := dims.prow_lt other
  unfold bottom Below
  split
  · exact dims.some_eq_some _ _ (dims.pcol_lt rank) (by rw [Nat.succ_mul]; omega)
  · simp only [reduceCtorEq, false_iff]
    omega

/-- Every rank but those at an edge of the process grid has the neighbour. -/
theorem exists_left {rank : Fin nprocs} (inner : 0 < dims.pcol rank) :
    ∃ other, dims.RightOf other rank :=
  ⟨_, dims.left_eq_some.mp (if_pos inner)⟩

theorem exists_right {rank : Fin nprocs} (inner : dims.pcol rank + 1 < dims.pcols) :
    ∃ other, dims.RightOf rank other :=
  ⟨_, dims.right_eq_some.mp (dif_pos (show dims.pcol rank < dims.pcols - 1 by omega))⟩

theorem exists_top {rank : Fin nprocs} (inner : 0 < dims.prow rank) :
    ∃ other, dims.Below other rank :=
  ⟨_, dims.top_eq_some.mp (if_pos inner)⟩

theorem exists_bottom {rank : Fin nprocs} (inner : dims.prow rank + 1 < dims.prows) :
    ∃ other, dims.Below rank other :=
  ⟨_, dims.bottom_eq_some.mp (dif_pos (show dims.prow rank < dims.prows - 1 by omega))⟩

variable (gRows gCols ntimes : ℕ)

/-- `left_LCols`, `right_LCols` and `above_LRows`: a number that the decomposition
gives for a neighbour. -/
def ofNeighbour (number : Decomp nprocs → ℕ) (neighbour : Option (Fin nprocs)) : ℕ :=
  match neighbour with
  | none => 0
  | some rank => number (dims.meshDecomp gRows gCols rank)

/-- The calculation of iteration `k`. -/
def calculate (k : ℕ) (rank : Fin nprocs) : Mem → Mem :=
  let patch := dims.meshDecomp gRows gCols rank
  sweep patch.lRows patch.lCols (matrixAt k) (tempAt k)

/-- What a rank computes after each of the two phases of an iteration. -/
def update (phase : ℕ) (rank : Fin nprocs) : Mem → Mem :=
  if phase % 2 = 0 then id else dims.calculate gRows gCols (phase / 2) rank

/-- `life` with the `MLIFE_exchange` of point-to-point messages. -/
def pt2pt : PointToPoint.Program (Fin nprocs) Addr Int where
  phases := 2 * ntimes
  calls phase rank :=
    let k := phase / 2
    let patch := dims.meshDecomp gRows gCols rank
    let ⟨left, right, above, below, lRows, lCols, _, _⟩ := patch
    if phase % 2 = 0 then
      [.isend (column lRows lCols k 1) left,
        .irecv (column lRows lCols k 0) left,
        .isend (column lRows lCols k lCols) right,
        .irecv (column lRows lCols k (lCols + 1)) right]
    else
      [.isend (edge lCols k 1) above,
        .irecv (edge lCols k 0) above,
        .isend (edge lCols k lRows) below,
        .irecv (edge lCols k (lRows + 1)) below]
  update := dims.update gRows gCols

/-- The `MPI_Put` calls of `MLIFE_exchange` between its first two fences and between
its last two, into the window of the allocation that `matrix` points to. -/
def puts (phase : ℕ) (rank : Fin nprocs) : List (OneSided.Put (Fin nprocs) Addr) :=
  let k := phase / 2
  let patch := dims.meshDecomp gRows gCols rank
  let ⟨left, right, above, below, lRows, lCols, _, _⟩ := patch
  let aboveLRows := dims.ofNeighbour gRows gCols Decomp.lRows above
  let leftLCols := dims.ofNeighbour gRows gCols Decomp.lCols left
  let rightLCols := dims.ofNeighbour gRows gCols Decomp.lCols right
  if phase % 2 = 0 then
    [⟨column lRows lCols k 1, left,
        strided (matrixAt k, (leftLCols + 2) + (leftLCols + 1)) lRows (leftLCols + 2)⟩,
      ⟨column lRows lCols k lCols, right,
        strided (matrixAt k, rightLCols + 2) lRows (rightLCols + 2)⟩]
  else
    [⟨edge lCols k 1, above,
        consecutive (matrixAt k, (aboveLRows + 1) * (lCols + 2)) (lCols + 2)⟩,
      ⟨edge lCols k lRows, below, consecutive (matrixAt k, 0) (lCols + 2)⟩]

/-- `life` with the `MLIFE_exchange` of puts between fences. -/
def fence : OneSided.Program Buffer (Fin nprocs) Addr Int where
  phases := 2 * ntimes
  window phase := matrixAt (phase / 2)
  group phase := OneSided.fenceGroup (List.finRange nprocs) (dims.puts gRows gCols phase)
  puts := dims.puts gRows gCols
  update := dims.update gRows gCols

/-! ### The exchange of patch edges -/

/-- The rows of a rank's patch. -/
abbrev rowsOf (rank : Fin nprocs) : ℕ := lengthOf gRows dims.prows (dims.prow rank)

/-- The columns of a rank's patch. -/
abbrev colsOf (rank : Fin nprocs) : ℕ := lengthOf gCols dims.pcols (dims.pcol rank)

theorem calculate_eq (k : ℕ) (rank : Fin nprocs) :
    dims.calculate gRows gCols k rank =
      sweep (dims.rowsOf gRows rank) (dims.colsOf gCols rank) (matrixAt k) (tempAt k) := rfl

/-- In the first phase of an iteration, edge columns become the halo columns of the
patches beside; in the second, edge rows with their halo entries become the halo
rows of the patches above and below. -/
def patches : Exchange (Fin nprocs) Addr Int where
  transfers phase source dest :=
    let k := phase / 2
    if phase < 2 * ntimes then
      if phase % 2 = 0 then
        if dims.RightOf dest source then
          (column (dims.rowsOf gRows source) (dims.colsOf gCols source) k 1).zip
            (column (dims.rowsOf gRows dest) (dims.colsOf gCols dest) k
              (dims.colsOf gCols dest + 1))
        else if dims.RightOf source dest then
          (column (dims.rowsOf gRows source) (dims.colsOf gCols source) k
            (dims.colsOf gCols source)).zip
            (column (dims.rowsOf gRows dest) (dims.colsOf gCols dest) k 0)
        else []
      else
        if dims.Below dest source then
          (edge (dims.colsOf gCols source) k 1).zip
            (edge (dims.colsOf gCols dest) k (dims.rowsOf gRows dest + 1))
        else if dims.Below source dest then
          (edge (dims.colsOf gCols source) k (dims.rowsOf gRows source)).zip
            (edge (dims.colsOf gCols dest) k 0)
        else []
    else []
  update := dims.update gRows gCols

theorem pt2pt_sends (source dest : Fin nprocs) (phase : ℕ) :
    (dims.pt2pt gRows gCols ntimes).sends source dest phase =
      if phase < 2 * ntimes then
        if phase % 2 = 0 then
          if dims.RightOf dest source then
            [column (dims.rowsOf gRows source) (dims.colsOf gCols source) (phase / 2) 1]
          else if dims.RightOf source dest then
            [column (dims.rowsOf gRows source) (dims.colsOf gCols source) (phase / 2)
              (dims.colsOf gCols source)]
          else []
        else
          if dims.Below dest source then [edge (dims.colsOf gCols source) (phase / 2) 1]
          else if dims.Below source dest then
            [edge (dims.colsOf gCols source) (phase / 2) (dims.rowsOf gRows source)]
          else []
      else [] := by
  have beside := dims.rightOf_asymm source dest
  have under := dims.below_asymm source dest
  unfold PointToPoint.Program.sends PointToPoint.Program.callsAt pt2pt
  split
  · simp only [meshDecomp]
    split
    · simp only [PointToPoint.sendsTo_isend, PointToPoint.sendsTo_irecv,
        PointToPoint.sendsTo_nil, left_eq_some, right_eq_some]
      grind [lengthOf]
    · simp only [PointToPoint.sendsTo_isend, PointToPoint.sendsTo_irecv,
        PointToPoint.sendsTo_nil, top_eq_some, bottom_eq_some]
      grind [lengthOf]
  · rfl

theorem pt2pt_recvs (source dest : Fin nprocs) (phase : ℕ) :
    (dims.pt2pt gRows gCols ntimes).recvs source dest phase =
      if phase < 2 * ntimes then
        if phase % 2 = 0 then
          if dims.RightOf dest source then
            [column (dims.rowsOf gRows dest) (dims.colsOf gCols dest) (phase / 2)
              (dims.colsOf gCols dest + 1)]
          else if dims.RightOf source dest then
            [column (dims.rowsOf gRows dest) (dims.colsOf gCols dest) (phase / 2) 0]
          else []
        else
          if dims.Below dest source then
            [edge (dims.colsOf gCols dest) (phase / 2) (dims.rowsOf gRows dest + 1)]
          else if dims.Below source dest then [edge (dims.colsOf gCols dest) (phase / 2) 0]
          else []
      else [] := by
  have beside := dims.rightOf_asymm source dest
  have under := dims.below_asymm source dest
  unfold PointToPoint.Program.recvs PointToPoint.Program.callsAt pt2pt
  split
  · simp only [meshDecomp]
    split
    · simp only [PointToPoint.recvsFrom_isend, PointToPoint.recvsFrom_irecv,
        PointToPoint.recvsFrom_nil, left_eq_some, right_eq_some]
      grind [lengthOf]
    · simp only [PointToPoint.recvsFrom_isend, PointToPoint.recvsFrom_irecv,
        PointToPoint.recvsFrom_nil, top_eq_some, bottom_eq_some]
      grind [lengthOf]
  · rfl

/-- Patches side by side have the same rows. -/
theorem rowsOf_eq {first second : Fin nprocs} (beside : dims.RightOf first second) :
    dims.rowsOf gRows second = dims.rowsOf gRows first := by
  rw [rowsOf, beside.1]

/-- Patches one below the other have the same columns. -/
theorem colsOf_eq {first second : Fin nprocs} (under : dims.Below first second) :
    dims.colsOf gCols second = dims.colsOf gCols first := by
  rw [colsOf, under.2]

theorem pt2pt_matched : (dims.pt2pt gRows gCols ntimes).Matched := by
  intro source dest phase
  rw [pt2pt_sends, pt2pt_recvs]
  split_ifs with _ _ left right above below
  · exact .inr ⟨_, _, rfl, rfl, by simp [dims.rowsOf_eq gRows left]⟩
  · exact .inr ⟨_, _, rfl, rfl, by simp [dims.rowsOf_eq gRows right]⟩
  · exact .inl ⟨rfl, rfl⟩
  · exact .inr ⟨_, _, rfl, rfl, by simp [dims.colsOf_eq gCols above]⟩
  · exact .inr ⟨_, _, rfl, rfl, by simp [dims.colsOf_eq gCols below]⟩
  · exact .inl ⟨rfl, rfl⟩
  · exact .inl ⟨rfl, rfl⟩

theorem pt2pt_exchange :
    (dims.pt2pt gRows gCols ntimes).exchange = dims.patches gRows gCols ntimes := by
  unfold PointToPoint.Program.exchange patches
  congr 1
  ext1 phase
  ext1 source
  ext1 dest
  rw [pt2pt_sends, pt2pt_recvs]
  split_ifs <;> simp

/-- The displacement of a put to the left is that of the neighbour's right halo
column. -/
theorem column_left {rank other : Fin nprocs} (beside : dims.RightOf other rank) (k : ℕ) :
    strided (matrixAt k, (dims.ofNeighbour gRows gCols Decomp.lCols (dims.left rank) + 2) +
        (dims.ofNeighbour gRows gCols Decomp.lCols (dims.left rank) + 1))
      (dims.rowsOf gRows rank)
      (dims.ofNeighbour gRows gCols Decomp.lCols (dims.left rank) + 2) =
    column (dims.rowsOf gRows other) (dims.colsOf gCols other) k (dims.colsOf gCols other + 1) := by
  rw [dims.left_eq_some.mpr beside, dims.rowsOf_eq gRows beside, column, entry, offset,
    Nat.one_mul]
  rfl

/-- The displacement of a put to the right is that of the neighbour's left halo
column. -/
theorem column_right {rank other : Fin nprocs} (beside : dims.RightOf rank other) (k : ℕ) :
    strided (matrixAt k, dims.ofNeighbour gRows gCols Decomp.lCols (dims.right rank) + 2)
      (dims.rowsOf gRows rank)
      (dims.ofNeighbour gRows gCols Decomp.lCols (dims.right rank) + 2) =
    column (dims.rowsOf gRows other) (dims.colsOf gCols other) k 0 := by
  rw [dims.right_eq_some.mpr beside, dims.rowsOf_eq gRows beside, column, entry, offset,
    Nat.one_mul]
  rfl

/-- The displacement of a put upwards is that of the neighbour's lower halo row. -/
theorem edge_above {rank other : Fin nprocs} (under : dims.Below other rank) (k : ℕ) :
    consecutive (matrixAt k,
        (dims.ofNeighbour gRows gCols Decomp.lRows (dims.top rank) + 1) *
          (dims.colsOf gCols rank + 2)) (dims.colsOf gCols rank + 2) =
    edge (dims.colsOf gCols other) k (dims.rowsOf gRows other + 1) := by
  rw [dims.top_eq_some.mpr under, dims.colsOf_eq gCols under]
  rfl

/-- The displacement of a put downwards is that of the neighbour's upper halo row. -/
theorem edge_below {rank other : Fin nprocs} (under : dims.Below rank other) (k : ℕ) :
    consecutive (matrixAt k, 0) (dims.colsOf gCols rank + 2) =
      edge (dims.colsOf gCols other) k 0 := by
  rw [dims.colsOf_eq gCols under, edge, entry, offset, Nat.zero_mul]

/-- The puts of a phase move the same elements as its messages. -/
theorem elementsTo_puts (source dest : Fin nprocs) {phase : ℕ} (inTime : phase < 2 * ntimes) :
    OneSided.elementsTo (dims.puts gRows gCols phase source) dest =
      (dims.patches gRows gCols ntimes).transfers phase source dest := by
  simp only [patches, if_pos inTime, puts]
  split
  · simp only [OneSided.elementsTo_cons, OneSided.elementsTo_nil, List.append_nil, meshDecomp,
      left_eq_some, right_eq_some]
    by_cases left : dims.RightOf dest source
    · rw [if_pos left, if_pos left, if_neg (dims.rightOf_asymm _ _ left), List.append_nil,
        ← dims.column_left gRows gCols left]
      rfl
    · rw [if_neg left, if_neg left, List.nil_append]
      by_cases right : dims.RightOf source dest
      · rw [if_pos right, if_pos right, ← dims.column_right gRows gCols right]
        rfl
      · rw [if_neg right, if_neg right]
  · simp only [OneSided.elementsTo_cons, OneSided.elementsTo_nil, List.append_nil, meshDecomp,
      top_eq_some, bottom_eq_some]
    by_cases above : dims.Below dest source
    · rw [if_pos above, if_pos above, if_neg (dims.below_asymm _ _ above), List.append_nil,
        ← dims.edge_above gRows gCols above]
      rfl
    · rw [if_neg above, if_neg above, List.nil_append]
      by_cases below : dims.Below source dest
      · rw [if_pos below, if_pos below, ← dims.edge_below gCols below]
        rfl
      · rw [if_neg below, if_neg below]

theorem fence_matched : (dims.fence gRows gCols ntimes).Matched where
  symm := by
    intro phase source dest member
    obtain ⟨_, puts⟩ := OneSided.mem_fenceGroup.mp member
    exact OneSided.mem_fenceGroup.mpr ⟨List.mem_finRange _, puts.symm⟩
  target := by
    intro phase rank put dest listed aimed
    unfold OneSided.Program.putsAt at listed
    split at listed
    · exact OneSided.mem_fenceGroup.mpr ⟨List.mem_finRange _, .inl ⟨put, listed, aimed⟩⟩
    · cases listed

theorem fence_exchange :
    (dims.fence gRows gCols ntimes).exchange = dims.patches gRows gCols ntimes := by
  unfold OneSided.Program.exchange
  congr 1
  ext1 phase
  ext1 source
  ext1 dest
  by_cases inTime : phase < 2 * ntimes
  · rw [OneSided.Program.putsAt, if_pos (by exact inTime)]
    exact dims.elementsTo_puts gRows gCols ntimes source dest inTime
  · rw [OneSided.Program.putsAt, if_neg (by exact inTime), if_neg inTime]
    rfl

end Dims

end HandsOn.Life
