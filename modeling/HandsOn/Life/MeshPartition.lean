import HandsOn.Life.MeshLife
import HandsOn.Semantics.CheckedInt

/-!
# The mesh decomposition in `int` arithmetic

`MLIFE_MeshDecomp` as the code computes it. It does not overflow, and computes the numbers and
the neighbours of the patches.
-/

namespace HandsOn.Life

open HandsOn.Semantics.CheckedInt

/-- What `MLIFE_MeshDecomp` stores through its pointers. -/
structure MeshDecomp where
  left : Int32
  right : Int32
  top : Int32
  bottom : Int32
  lRows : Int32
  lCols : Int32
  gFirstRow : Int32
  gFirstCol : Int32
deriving DecidableEq

/-- `top` and `left`, in `int` arithmetic -/
def before? (procNull part rank stride : Int32) : Option Int32 :=
  if part > 0 then sub? rank stride else some procNull

/-- `bottom` and `right`, in `int` arithmetic -/
def after? (procNull parts part rank stride : Int32) : Option Int32 := do
  if part < (← sub? parts 1) then add? rank stride else return procNull

/-- `firstcol` and `firstrow`, in `int` arithmetic -/
def firstOf? (size parts part : Int32) : Option Int32 := do
  add? 1 (← mul? part (← div? size parts))

/-- `lastcol` and `lastrow`, in `int` arithmetic -/
def lastOf? (size parts part : Int32) : Option Int32 := do
  if part = (← sub? parts 1) then return size
  else sub? (← add? 1 (← mul? (← add? part 1) (← div? size parts))) 1

/-- `LCols` and `LRows`, in `int` arithmetic -/
def lengthOf? (last first : Int32) : Option Int32 := do
  add? (← sub? last first) 1

/-- `MLIFE_MeshDecomp`, in `int` arithmetic, with the dimensions that `MPI_Dims_create`
returns -/
def mlifeMeshDecomp (procNull dims0 dims1 rank gRows gCols : Int32) : Option MeshDecomp := do
  let prow ← div? rank dims1
  let pcol ← rem? rank dims1
  let top ← before? procNull prow rank dims1
  let left ← before? procNull pcol rank 1
  let bottom ← after? procNull dims0 prow rank dims1
  let right ← after? procNull dims1 pcol rank 1
  let firstcol ← firstOf? gCols dims1 pcol
  let firstrow ← firstOf? gRows dims0 prow
  let lastcol ← lastOf? gCols dims1 pcol
  let lastrow ← lastOf? gRows dims0 prow
  let lRows ← lengthOf? lastrow firstrow
  let lCols ← lengthOf? lastcol firstcol
  return { left, right, top, bottom, lRows, lCols, gFirstRow := firstrow, gFirstCol := firstcol }

/-! ### The partition -/

namespace MeshDecomp

/-- The patch has a cell of the mesh. -/
def Holds (patch : MeshDecomp) (row col : Int) : Prop :=
  (patch.gFirstRow.toInt ≤ row ∧ row < patch.gFirstRow.toInt + patch.lRows.toInt) ∧
    patch.gFirstCol.toInt ≤ col ∧ col < patch.gFirstCol.toInt + patch.lCols.toInt

/-- Two patches have the same rows, and the second begins where the first ends. -/
structure Beside (first second : MeshDecomp) : Prop where
  gFirstRow : second.gFirstRow = first.gFirstRow
  lRows : second.lRows = first.lRows
  next : second.gFirstCol.toInt = first.gFirstCol.toInt + first.lCols.toInt

/-- Two patches have the same columns, and the second begins where the first ends. -/
structure Above (first second : MeshDecomp) : Prop where
  gFirstCol : second.gFirstCol = first.gFirstCol
  lCols : second.lCols = first.lCols
  next : second.gFirstRow.toInt = first.gFirstRow.toInt + first.lRows.toInt

end MeshDecomp

/-- `link` is `MPI_PROC_NULL` exactly for the ranks at an edge; elsewhere it is a rank from
which `back` leads back, and the two patches are adjacent. -/
structure Linked (procNull nprocs : Int32) (decomp : Int32 → MeshDecomp)
    (link back : MeshDecomp → Int32) (AtEdge : Int → Prop)
    (Adjacent : MeshDecomp → MeshDecomp → Prop) : Prop where
  edge : ∀ rank, 0 ≤ rank → rank < nprocs →
    (link (decomp rank) = procNull ↔ AtEdge rank.toInt)
  isRank : ∀ rank, 0 ≤ rank → rank < nprocs → link (decomp rank) ≠ procNull →
    0 ≤ link (decomp rank) ∧ link (decomp rank) < nprocs
  symmetric : ∀ rank, 0 ≤ rank → rank < nprocs → link (decomp rank) ≠ procNull →
    back (decomp (link (decomp rank))) = rank
  adjacent : ∀ rank, 0 ≤ rank → rank < nprocs → link (decomp rank) ≠ procNull →
    Adjacent (decomp rank) (decomp (link (decomp rank)))

/-- The patches that the ranks compute for a process grid. -/
structure MeshPartition (procNull dims0 dims1 nprocs gRows gCols : Int32)
    (decomp : Int32 → MeshDecomp) : Prop where
  /-- Nothing overflows. -/
  defined : ∀ rank, 0 ≤ rank → rank < nprocs →
    mlifeMeshDecomp procNull dims0 dims1 rank gRows gCols = some (decomp rank)
  nonneg : ∀ rank, 0 ≤ rank → rank < nprocs → 0 ≤ (decomp rank).lRows ∧ 0 ≤ (decomp rank).lCols
  disjoint : ∀ rank, 0 ≤ rank → rank < nprocs → ∀ other, 0 ≤ other → other < nprocs →
    ∀ row col, (decomp rank).Holds row col → (decomp other).Holds row col → rank = other
  covers : ∀ row col : Int, 1 ≤ row → row ≤ gRows.toInt → 1 ≤ col → col ≤ gCols.toInt →
    ∃ rank, 0 ≤ rank ∧ rank < nprocs ∧ (decomp rank).Holds row col
  within : ∀ rank, 0 ≤ rank → rank < nprocs → ∀ row col, (decomp rank).Holds row col →
    (1 ≤ row ∧ row ≤ gRows.toInt) ∧ 1 ≤ col ∧ col ≤ gCols.toInt
  left : Linked procNull nprocs decomp MeshDecomp.left MeshDecomp.right
    (fun rank => rank % dims1.toInt = 0) fun patch other => other.Beside patch
  right : Linked procNull nprocs decomp MeshDecomp.right MeshDecomp.left
    (fun rank => rank % dims1.toInt = dims1.toInt - 1) MeshDecomp.Beside
  top : Linked procNull nprocs decomp MeshDecomp.top MeshDecomp.bottom
    (fun rank => rank / dims1.toInt = 0) fun patch other => other.Above patch
  bottom : Linked procNull nprocs decomp MeshDecomp.bottom MeshDecomp.top
    (fun rank => rank / dims1.toInt = dims0.toInt - 1) MeshDecomp.Above

/-! ### The computed numbers -/

section Computed

variable {size parts part : ℕ} (fewSize : size < 2 ^ 31) (fewParts : parts < 2 ^ 31)
  (inside : part < parts)

/-- The parts before one and its share of the whole do not exceed it. -/
theorem succ_mul_div_le (size : ℕ) {parts part : ℕ} (inside : part < parts) :
    (part + 1) * (size / parts) ≤ size :=
  (Nat.mul_le_mul_right _ inside).trans (Nat.mul_div_le size parts)

include inside

/-- A part that is empty ends just before it begins. -/
theorem firstOf_le_lastOf : firstOf size parts part ≤ lastOf size parts part + 1 := by
  have whole := succ_mul_div_le size inside
  rw [Nat.succ_mul] at whole
  unfold firstOf lastOf
  rw [Nat.succ_mul]
  generalize size / parts = block at whole ⊢
  split <;> omega

include fewSize

theorem firstOf_lt : firstOf size parts part < 2 ^ 31 := by
  have whole := succ_mul_div_le size inside
  rw [Nat.succ_mul] at whole
  rw [firstOf]
  rcases Nat.eq_zero_or_pos (size / parts) with none | some
  · rw [none, Nat.mul_zero]
    decide
  · omega

theorem lastOf_lt : lastOf size parts part < 2 ^ 31 := by
  have whole := succ_mul_div_le size inside
  unfold lastOf
  split
  · exact fewSize
  · omega

include fewParts

theorem firstOf?_ofNat :
    firstOf? (Int32.ofNat size) (Int32.ofNat parts) (Int32.ofNat part) =
      some (Int32.ofNat (firstOf size parts part)) := by
  have fits := firstOf_lt fewSize inside
  have quotient : size / parts < 2 ^ 31 := (Nat.div_le_self size parts).trans_lt fewSize
  rw [firstOf] at fits ⊢
  rw [firstOf?, div?_ofNat fewSize fewParts (Nat.zero_lt_of_lt inside), Option.bind_eq_bind,
    Option.bind_some, mul?_ofNat (inside.trans fewParts) quotient (by omega), Option.bind_some]
  exact add?_ofNat fits

theorem lastOf?_ofNat :
    lastOf? (Int32.ofNat size) (Int32.ofNat parts) (Int32.ofNat part) =
      some (Int32.ofNat (lastOf size parts part)) := by
  have positive := Nat.zero_lt_of_lt inside
  have quotient : size / parts < 2 ^ 31 := (Nat.div_le_self size parts).trans_lt fewSize
  rw [lastOf?, show (1 : Int32) = Int32.ofNat 1 from rfl, sub?_ofNat positive fewParts]
  simp only [Option.bind_eq_bind, Option.bind_some,
    ofNat_inj (inside.trans fewParts) (show parts - 1 < 2 ^ 31 by omega)]
  unfold lastOf
  by_cases last : part = parts - 1
  · rw [if_pos last, if_pos last]
    rfl
  · have next := firstOf_lt fewSize (show part + 1 < parts by omega)
    rw [firstOf] at next
    rw [if_neg last, if_neg last, add?_ofNat (by omega), Option.bind_some,
      div?_ofNat fewSize fewParts positive, Option.bind_some,
      mul?_ofNat (by omega) quotient (by omega), Option.bind_some, add?_ofNat next,
      Option.bind_some]
    exact sub?_ofNat (by omega) next

end Computed

theorem lengthOf?_ofNat {last first : ℕ} (ordered : first ≤ last + 1) (fits : last < 2 ^ 31)
    (fits' : first < 2 ^ 31) (fits'' : last + 1 - first < 2 ^ 31) :
    lengthOf? (Int32.ofNat last) (Int32.ofNat first) =
      some (Int32.ofNat (last + 1 - first)) := by
  have difference : ∃ d, sub? (Int32.ofNat last) (Int32.ofNat first) = some d ∧
      d.toInt = (last : Int) - first := by
    refine ⟨Int32.ofInt (last - first), ?_, Int32.toInt_ofInt_of_le (by omega) (by omega)⟩
    rw [sub?, toInt_ofNat fits, toInt_ofNat fits', ofInt?, if_pos (by omega)]
  obtain ⟨d, found, value⟩ := difference
  have total : d.toInt + Int32.toInt 1 = (last + 1 - first : ℕ) := by
    rw [value, Int32.toInt_one]
    omega
  rw [lengthOf?, found, Option.bind_eq_bind, Option.bind_some, add?, total, ofInt?_natCast fits'']

section Neighbours

variable {procNull : Int32} {parts part rank stride : ℕ} (fewParts : parts < 2 ^ 31)
  (inside : part < parts)
include fewParts inside

theorem before?_ofNat (fewRanks : rank < 2 ^ 31) (room : 0 < part → stride ≤ rank) :
    before? procNull (Int32.ofNat part) (Int32.ofNat rank) (Int32.ofNat stride) =
      some (if 0 < part then Int32.ofNat (rank - stride) else procNull) := by
  have positive : Int32.ofNat part > 0 ↔ 0 < part :=
    ofNat_lt_iff (by decide) (inside.trans fewParts)
  rw [before?]
  by_cases inner : 0 < part
  · rw [if_pos (positive.mpr inner), if_pos inner, sub?_ofNat (room inner) fewRanks]
  · rw [if_neg (mt positive.mp inner), if_neg inner]

theorem after?_ofNat (fits : part + 1 < parts → rank + stride < 2 ^ 31) :
    after? procNull (Int32.ofNat parts) (Int32.ofNat part) (Int32.ofNat rank)
        (Int32.ofNat stride) =
      some (if part < parts - 1 then Int32.ofNat (rank + stride) else procNull) := by
  rw [after?, show (1 : Int32) = Int32.ofNat 1 from rfl,
    sub?_ofNat (Nat.zero_lt_of_lt inside) fewParts]
  simp only [Option.bind_eq_bind, Option.bind_some,
    ofNat_lt_iff (inside.trans fewParts) (show parts - 1 < 2 ^ 31 by omega)]
  by_cases inner : part < parts - 1
  · rw [if_pos inner, if_pos inner, add?_ofNat (fits (by omega))]
  · rw [if_neg inner, if_neg inner]
    rfl

end Neighbours

namespace Dims

variable {nprocs : ℕ} (dims : Dims nprocs)

/-- A neighbour as an `int`. -/
def rankOrNull (procNull : Int32) : Option (Fin nprocs) → Int32
  | none => procNull
  | some rank => Int32.ofNat rank

/-- What `MLIFE_MeshDecomp` stores, from the natural numbers of a patch. -/
def stored (procNull : Int32) (gRows gCols : ℕ) (rank : Fin nprocs) : MeshDecomp :=
  let patch := dims.meshDecomp gRows gCols rank
  { left := rankOrNull procNull patch.left
    right := rankOrNull procNull patch.right
    top := rankOrNull procNull patch.top
    bottom := rankOrNull procNull patch.bottom
    lRows := Int32.ofNat patch.lRows
    lCols := Int32.ofNat patch.lCols
    gFirstRow := Int32.ofNat patch.gFirstRow
    gFirstCol := Int32.ofNat patch.gFirstCol }

theorem pcols_le (rank : Fin nprocs) : dims.pcols ≤ nprocs :=
  (Nat.le_mul_of_pos_left _ (Nat.zero_lt_of_lt (dims.prow_lt rank))).trans_eq dims.product

theorem prows_le (rank : Fin nprocs) : dims.prows ≤ nprocs :=
  (Nat.le_mul_of_pos_right _ (dims.pcols_pos rank)).trans_eq dims.product

section Computed

variable (procNull : Int32) {gRows gCols : ℕ} (fewProcs : nprocs < 2 ^ 31) (rank : Fin nprocs)
include fewProcs

theorem top_ofNat : before? procNull (Int32.ofNat (dims.prow rank)) (Int32.ofNat rank)
    (Int32.ofNat dims.pcols) = some (rankOrNull procNull (dims.top rank)) := by
  have place := dims.rank_eq rank
  have room : 0 < dims.prow rank → dims.pcols ≤ rank := by
    intro inner
    have := Nat.le_mul_of_pos_left dims.pcols inner
    omega
  rw [before?_ofNat ((dims.prows_le rank).trans_lt fewProcs) (dims.prow_lt rank)
    (rank.isLt.trans fewProcs) room, top]
  split <;> rfl

theorem left_ofNat : before? procNull (Int32.ofNat (dims.pcol rank)) (Int32.ofNat rank) 1 =
    some (rankOrNull procNull (dims.left rank)) := by
  have place := dims.rank_eq rank
  rw [show (1 : Int32) = Int32.ofNat 1 from rfl,
    before?_ofNat ((dims.pcols_le rank).trans_lt fewProcs) (dims.pcol_lt rank)
      (rank.isLt.trans fewProcs) (by omega), left]
  split <;> rfl

theorem bottom_ofNat : after? procNull (Int32.ofNat dims.prows) (Int32.ofNat (dims.prow rank))
    (Int32.ofNat rank) (Int32.ofNat dims.pcols) =
      some (rankOrNull procNull (dims.bottom rank)) := by
  have place := dims.rank_eq rank
  have fits : dims.prow rank + 1 < dims.prows → rank + dims.pcols < 2 ^ 31 := by
    intro inner
    have below := dims.lt_of_coords inner (dims.pcol_lt rank)
    rw [Nat.succ_mul] at below
    omega
  rw [after?_ofNat ((dims.prows_le rank).trans_lt fewProcs) (dims.prow_lt rank) fits, bottom]
  split <;> rfl

theorem right_ofNat : after? procNull (Int32.ofNat dims.pcols) (Int32.ofNat (dims.pcol rank))
    (Int32.ofNat rank) 1 = some (rankOrNull procNull (dims.right rank)) := by
  have place := dims.rank_eq rank
  have fits : dims.pcol rank + 1 < dims.pcols → (rank : ℕ) + 1 < 2 ^ 31 := by
    intro inner
    have beside := dims.lt_of_coords (dims.prow_lt rank) inner
    omega
  rw [show (1 : Int32) = Int32.ofNat 1 from rfl,
    after?_ofNat ((dims.pcols_le rank).trans_lt fewProcs) (dims.pcol_lt rank) fits, right]
  split <;> rfl

/-- `MLIFE_MeshDecomp` computes the patches. -/
theorem mlifeMeshDecomp_ofNat (fewRows : gRows < 2 ^ 31) (fewCols : gCols < 2 ^ 31) :
    mlifeMeshDecomp procNull (Int32.ofNat dims.prows) (Int32.ofNat dims.pcols) (Int32.ofNat rank)
        (Int32.ofNat gRows) (Int32.ofNat gCols) =
      some (dims.stored procNull gRows gCols rank) := by
  have inRows := dims.prow_lt rank
  have inCols := dims.pcol_lt rank
  have fewPcols := (dims.pcols_le rank).trans_lt fewProcs
  have fewProws := (dims.prows_le rank).trans_lt fewProcs
  have fewRanks := rank.isLt.trans fewProcs
  have row := div?_ofNat fewRanks fewPcols (dims.pcols_pos rank)
  have col := rem?_ofNat fewRanks fewPcols (dims.pcols_pos rank)
  rw [← prow] at row
  rw [← pcol] at col
  have length : ∀ {size parts part : ℕ}, size < 2 ^ 31 → part < parts →
      lengthOf? (Int32.ofNat (lastOf size parts part)) (Int32.ofNat (firstOf size parts part)) =
        some (Int32.ofNat (lastOf size parts part + 1 - firstOf size parts part)) := by
    intro size parts part fewSize inside
    have last := lastOf_lt fewSize inside
    have first : 1 ≤ firstOf size parts part := Nat.le_add_right 1 _
    exact lengthOf?_ofNat (firstOf_le_lastOf inside) last (firstOf_lt fewSize inside) (by omega)
  rw [mlifeMeshDecomp, row, col]
  simp only [Option.bind_eq_bind, Option.bind_some, dims.top_ofNat procNull fewProcs rank,
    dims.left_ofNat procNull fewProcs rank, dims.bottom_ofNat procNull fewProcs rank,
    dims.right_ofNat procNull fewProcs rank, firstOf?_ofNat fewCols fewPcols inCols,
    firstOf?_ofNat fewRows fewProws inRows, lastOf?_ofNat fewCols fewPcols inCols,
    lastOf?_ofNat fewRows fewProws inRows, length fewCols inCols, length fewRows inRows]
  rfl

/-- What the ranks store, by rank. -/
def storedBy (positive : 0 < nprocs) (gRows gCols : ℕ) (rank : Int32) : MeshDecomp :=
  dims.stored procNull gRows gCols ⟨rank.toNatClampNeg % nprocs, Nat.mod_lt _ positive⟩

end Computed

section Partition

variable {dims} {procNull : Int32} {gRows gCols : ℕ} (positive : 0 < nprocs)
  (fewProcs : nprocs < 2 ^ 31) (fewRows : gRows < 2 ^ 31) (fewCols : gCols < 2 ^ 31)

include fewProcs in
theorem storedBy_ofNat (rank : Fin nprocs) :
    dims.storedBy procNull positive gRows gCols (Int32.ofNat rank) =
      dims.stored procNull gRows gCols rank := by
  have same : (Int32.ofNat rank).toNatClampNeg % nprocs = rank := by
    rw [Int32.toNatClampNeg_ofNat_of_lt (rank.isLt.trans fewProcs), Nat.mod_eq_of_lt rank.isLt]
  rw [storedBy]
  congr 1
  exact Fin.ext same

include fewProcs in
/-- What holds of all ranks. -/
theorem forall_rank {P : Int32 → Prop} :
    (∀ rank, 0 ≤ rank → rank < Int32.ofNat nprocs → P rank) ↔
      ∀ rank : Fin nprocs, P (Int32.ofNat rank) := by
  rw [forall_lt_ofNat fewProcs]
  exact ⟨fun all rank => all rank rank.isLt, fun all rank inside => all ⟨rank, inside⟩⟩

include fewProcs in
theorem rankOrNull_eq_null_iff (noRank : ¬ (0 ≤ procNull ∧ procNull < Int32.ofNat nprocs))
    {neighbour : Option (Fin nprocs)} :
    rankOrNull procNull neighbour = procNull ↔ neighbour = none := by
  cases neighbour with
  | none => exact iff_of_true rfl rfl
  | some rank =>
      refine iff_of_false (fun same => noRank ?_) (fun same => by cases same)
      rw [← same]
      exact ⟨ofNat_nonneg (rank.isLt.trans fewProcs),
        (ofNat_lt_iff (rank.isLt.trans fewProcs) fewProcs).mpr rank.isLt⟩

include fewProcs in
/-- The links of a direction, from the neighbours in it. -/
theorem linked_of (Next : Fin nprocs → Fin nprocs → Prop)
    (noRank : ¬ (0 ≤ procNull ∧ procNull < Int32.ofNat nprocs))
    {link back : MeshDecomp → Int32} {forth forth' : Fin nprocs → Option (Fin nprocs)}
    {AtEdge : Int → Prop} {Adjacent : MeshDecomp → MeshDecomp → Prop}
    (link_eq : ∀ rank, link (dims.stored procNull gRows gCols rank) =
      rankOrNull procNull (forth rank))
    (back_eq : ∀ rank, back (dims.stored procNull gRows gCols rank) =
      rankOrNull procNull (forth' rank))
    (forth_iff : ∀ {rank other}, forth rank = some other ↔ Next rank other)
    (back_iff : ∀ {rank other}, forth' other = some rank ↔ Next rank other)
    (edge : ∀ rank : Fin nprocs, forth rank = none ↔ AtEdge (rank : ℕ))
    (adjacent : ∀ {rank other}, Next rank other →
      Adjacent (dims.stored procNull gRows gCols rank) (dims.stored procNull gRows gCols other)) :
    Linked procNull (Int32.ofNat nprocs) (dims.storedBy procNull positive gRows gCols) link back
      AtEdge Adjacent := by
  have linked : ∀ rank, rankOrNull procNull (forth rank) ≠ procNull → ∃ other, Next rank other ∧
      rankOrNull procNull (forth rank) = Int32.ofNat other := by
    intro rank inner
    cases neighbour : forth rank with
    | none =>
        rw [neighbour] at inner
        exact absurd rfl inner
    | some other => exact ⟨other, forth_iff.mp neighbour, rfl⟩
  constructor <;> rw [forall_rank fewProcs] <;> intro rank <;>
    rw [storedBy_ofNat positive fewProcs, link_eq]
  · rw [rankOrNull_eq_null_iff fewProcs noRank, edge, toInt_ofNat (rank.isLt.trans fewProcs)]
  · intro inner
    obtain ⟨other, _, same⟩ := linked rank inner
    rw [same]
    exact ⟨ofNat_nonneg (other.isLt.trans fewProcs),
      (ofNat_lt_iff (other.isLt.trans fewProcs) fewProcs).mpr other.isLt⟩
  · intro inner
    obtain ⟨other, next, same⟩ := linked rank inner
    rw [same, storedBy_ofNat positive fewProcs, back_eq, back_iff.mpr next]
    rfl
  · intro inner
    obtain ⟨other, next, same⟩ := linked rank inner
    rw [same, storedBy_ofNat positive fewProcs]
    exact adjacent next

section Values

variable (procNull) (rank : Fin nprocs)
include fewRows

theorem toInt_gFirstRow : (dims.stored procNull gRows gCols rank).gFirstRow.toInt =
    (dims.meshDecomp gRows gCols rank).gFirstRow :=
  toInt_ofNat (firstOf_lt fewRows (dims.prow_lt rank))

theorem lRows_lt : (dims.meshDecomp gRows gCols rank).lRows < 2 ^ 31 := by
  have whole := offsetBefore_add_le gRows (dims.prow_lt rank)
  exact ((Nat.le_add_left _ _).trans whole).trans_lt fewRows

theorem toInt_lRows : (dims.stored procNull gRows gCols rank).lRows.toInt =
    (dims.meshDecomp gRows gCols rank).lRows :=
  toInt_ofNat (lRows_lt fewRows rank)

omit fewRows
include fewCols

theorem toInt_gFirstCol : (dims.stored procNull gRows gCols rank).gFirstCol.toInt =
    (dims.meshDecomp gRows gCols rank).gFirstCol :=
  toInt_ofNat (firstOf_lt fewCols (dims.pcol_lt rank))

theorem lCols_lt : (dims.meshDecomp gRows gCols rank).lCols < 2 ^ 31 := by
  have whole := offsetBefore_add_le gCols (dims.pcol_lt rank)
  exact ((Nat.le_add_left _ _).trans whole).trans_lt fewCols

theorem toInt_lCols : (dims.stored procNull gRows gCols rank).lCols.toInt =
    (dims.meshDecomp gRows gCols rank).lCols :=
  toInt_ofNat (lCols_lt fewCols rank)

include fewRows

/-- A stored patch has the cells of its numbers. -/
theorem holds_iff {row col : Int} : (dims.stored procNull gRows gCols rank).Holds row col ↔
    ∃ i j : ℕ, row = i ∧ col = j ∧ InPatch dims gRows gCols rank i j := by
  rw [MeshDecomp.Holds, toInt_gFirstRow procNull fewRows, toInt_lRows procNull fewRows,
    toInt_gFirstCol procNull fewCols, toInt_lCols procNull fewCols]
  constructor
  · rintro ⟨⟨firstRow, lastRow⟩, firstCol, lastCol⟩
    exact ⟨row.toNat, col.toNat, by omega, by omega, by omega, by omega⟩
  · rintro ⟨i, j, rfl, rfl, ⟨firstRow, lastRow⟩, firstCol, lastCol⟩
    exact ⟨by omega, by omega⟩

end Values

include fewProcs fewRows fewCols in
/-- The cells of the patch that a rank stores. -/
theorem storedBy_holds_iff (rank : Fin nprocs) {row col : Int} :
    (dims.storedBy procNull positive gRows gCols (Int32.ofNat rank)).Holds row col ↔
      ∃ i j : ℕ, row = i ∧ col = j ∧ InPatch dims gRows gCols rank i j := by
  rw [storedBy_ofNat positive fewProcs]
  exact holds_iff procNull fewRows fewCols rank

/-- A part begins where the one before it ends. -/
theorem firstOf_next {parts part next : ℕ} (size : ℕ) (follows : next = part + 1)
    (inside : next < parts) :
    (firstOf size parts next : Int) = firstOf size parts part + lengthOf size parts part := by
  subst follows
  rw [firstOf_eq, firstOf_eq, offsetBefore_succ size inside]
  omega

include fewCols in
/-- Patches side by side. -/
theorem beside_stored {first second : Fin nprocs} (beside : dims.RightOf first second) :
    (dims.stored procNull gRows gCols first).Beside (dims.stored procNull gRows gCols second) := by
  obtain ⟨sameRow, nextCol⟩ := beside
  refine ⟨?_, ?_, ?_⟩
  · simp only [stored, meshDecomp, sameRow]
  · simp only [stored, meshDecomp, sameRow]
  · rw [toInt_gFirstCol procNull fewCols, toInt_gFirstCol procNull fewCols,
      toInt_lCols procNull fewCols]
    exact firstOf_next gCols nextCol (dims.pcol_lt second)

include fewRows in
/-- Patches one below the other. -/
theorem above_stored {first second : Fin nprocs} (under : dims.Below first second) :
    (dims.stored procNull gRows gCols first).Above (dims.stored procNull gRows gCols second) := by
  obtain ⟨nextRow, sameCol⟩ := under
  refine ⟨?_, ?_, ?_⟩
  · simp only [stored, meshDecomp, sameCol]
  · simp only [stored, meshDecomp, sameCol]
  · rw [toInt_gFirstRow procNull fewRows, toInt_gFirstRow procNull fewRows,
      toInt_lRows procNull fewRows]
    exact firstOf_next gRows nextRow (dims.prow_lt second)

section Edges

variable (rank : Fin nprocs)

theorem left_eq_none : dims.left rank = none ↔ ((rank : ℕ) : Int) % dims.pcols = 0 := by
  rw [← Int.natCast_mod, Int.natCast_eq_zero, left, ite_eq_right_iff, pcol]
  simp only [reduceCtorEq, imp_false, gt_iff_lt, Nat.not_lt, Nat.le_zero]

theorem right_eq_none :
    dims.right rank = none ↔ ((rank : ℕ) : Int) % dims.pcols = dims.pcols - 1 := by
  have inside := dims.pcol_lt rank
  rw [← Int.natCast_mod, right, dite_eq_right_iff]
  simp only [reduceCtorEq, imp_false]
  rw [pcol] at inside ⊢
  omega

theorem top_eq_none : dims.top rank = none ↔ ((rank : ℕ) : Int) / dims.pcols = 0 := by
  rw [← Int.natCast_ediv, Int.natCast_eq_zero, top, ite_eq_right_iff, prow]
  simp only [reduceCtorEq, imp_false, gt_iff_lt, Nat.not_lt, Nat.le_zero]

theorem bottom_eq_none :
    dims.bottom rank = none ↔ ((rank : ℕ) : Int) / dims.pcols = dims.prows - 1 := by
  have inside := dims.prow_lt rank
  rw [← Int.natCast_ediv, bottom, dite_eq_right_iff]
  simp only [reduceCtorEq, imp_false]
  rw [prow] at inside ⊢
  generalize (rank : ℕ) / dims.pcols = row at inside ⊢
  omega

end Edges

include fewProcs fewRows fewCols in
/-- The patches of natural numbers are a partition in `int`. -/
theorem meshPartition_ofNat (noRank : ¬ (0 ≤ procNull ∧ procNull < Int32.ofNat nprocs)) :
    MeshPartition procNull (Int32.ofNat dims.prows) (Int32.ofNat dims.pcols) (Int32.ofNat nprocs)
      (Int32.ofNat gRows) (Int32.ofNat gCols) (dims.storedBy procNull positive gRows gCols) := by
  have rankZero : Fin nprocs := ⟨0, positive⟩
  have prows_eq := toInt_ofNat ((dims.prows_le rankZero).trans_lt fewProcs)
  have pcols_eq := toInt_ofNat ((dims.pcols_le rankZero).trans_lt fewProcs)
  constructor
  · rw [forall_rank fewProcs]
    intro rank
    rw [storedBy_ofNat positive fewProcs]
    exact dims.mlifeMeshDecomp_ofNat procNull fewProcs rank fewRows fewCols
  · rw [forall_rank fewProcs]
    intro rank
    rw [storedBy_ofNat positive fewProcs]
    exact ⟨ofNat_nonneg (lRows_lt fewRows rank), ofNat_nonneg (lCols_lt fewCols rank)⟩
  · rw [forall_rank fewProcs]
    intro rank
    rw [forall_rank fewProcs]
    intro other row col here there
    obtain ⟨i, j, rfl, rfl, inPatch⟩ :=
      (storedBy_holds_iff positive fewProcs fewRows fewCols rank).mp here
    obtain ⟨i', j', sameRow, sameCol, inOther⟩ :=
      (storedBy_holds_iff positive fewProcs fewRows fewCols other).mp there
    obtain rfl := Int.ofNat.inj sameRow
    obtain rfl := Int.ofNat.inj sameCol
    rw [inPatch.unique inOther]
  · intro row col firstRow lastRow firstCol lastCol
    rw [toInt_ofNat fewRows] at lastRow
    rw [toInt_ofNat fewCols] at lastCol
    obtain ⟨i, rfl⟩ := Int.eq_ofNat_of_zero_le (Int.le_of_lt firstRow)
    obtain ⟨j, rfl⟩ := Int.eq_ofNat_of_zero_le (Int.le_of_lt firstCol)
    obtain ⟨rank, here⟩ : ∃ rank, InPatch dims gRows gCols rank i j :=
      exists_inPatch positive (show Inside gRows gCols i j by unfold Inside; omega)
    refine ⟨Int32.ofNat rank, ofNat_nonneg (rank.isLt.trans fewProcs),
      (ofNat_lt_iff (rank.isLt.trans fewProcs) fewProcs).mpr rank.isLt, ?_⟩
    apply (storedBy_holds_iff positive fewProcs fewRows fewCols rank).mpr
    exact ⟨i, j, rfl, rfl, here⟩
  · rw [forall_rank fewProcs]
    intro rank row col here
    obtain ⟨i, j, rfl, rfl, inPatch⟩ :=
      (storedBy_holds_iff positive fewProcs fewRows fewCols rank).mp here
    obtain ⟨⟨firstRow, lastRow⟩, firstCol, lastCol⟩ := inPatch.inside
    rw [toInt_ofNat fewRows, toInt_ofNat fewCols]
    omega
  · refine linked_of positive fewProcs (fun rank other => dims.RightOf other rank) noRank
      (fun _ => rfl) (fun _ => rfl) dims.left_eq_some dims.right_eq_some
      (fun rank => ?_) (beside_stored fewCols)
    rw [pcols_eq]
    exact left_eq_none rank
  · refine linked_of positive fewProcs dims.RightOf noRank
      (fun _ => rfl) (fun _ => rfl) dims.right_eq_some dims.left_eq_some
      (fun rank => ?_) (beside_stored fewCols)
    rw [pcols_eq]
    exact right_eq_none rank
  · refine linked_of positive fewProcs (fun rank other => dims.Below other rank) noRank
      (fun _ => rfl) (fun _ => rfl) dims.top_eq_some dims.bottom_eq_some
      (fun rank => ?_) (above_stored fewRows)
    rw [pcols_eq]
    exact top_eq_none rank
  · refine linked_of positive fewProcs dims.Below noRank
      (fun _ => rfl) (fun _ => rfl) dims.bottom_eq_some dims.top_eq_some
      (fun rank => ?_) (above_stored fewRows)
    rw [pcols_eq, prows_eq]
    exact bottom_eq_none rank

end Partition

end Dims

/-- `MLIFE_MeshDecomp` partitions the mesh, with links between neighbours. -/
theorem mesh_partition (procNull dims0 dims1 nprocs gRows gCols : Int32) (rows : 0 ≤ gRows)
    (cols : 0 ≤ gCols) (positive0 : 1 ≤ dims0) (positive1 : 1 ≤ dims1)
    (product : dims0.toInt * dims1.toInt = nprocs.toInt)
    (noRank : ¬ (0 ≤ procNull ∧ procNull < nprocs)) :
    ∃ decomp, MeshPartition procNull dims0 dims1 nprocs gRows gCols decomp := by
  obtain ⟨r, fewRows, rfl⟩ := exists_ofNat rows
  obtain ⟨c, fewCols, rfl⟩ := exists_ofNat cols
  obtain ⟨prows, fewProws, rfl, someRow⟩ := exists_ofNat_pos positive0
  obtain ⟨pcols, fewPcols, rfl, someCol⟩ := exists_ofNat_pos positive1
  rw [toInt_ofNat fewProws, toInt_ofNat fewPcols, ← Nat.cast_mul] at product
  have fewProcs : prows * pcols < 2 ^ 31 := by
    have := nprocs.toInt_lt
    omega
  obtain rfl : nprocs = Int32.ofNat (prows * pcols) := by
    rw [← Int32.toInt_inj, toInt_ofNat fewProcs, product]
  let dims : Dims (prows * pcols) := ⟨prows, pcols, rfl⟩
  exact ⟨_, dims.meshPartition_ofNat (Nat.mul_pos someRow someCol) fewProcs fewRows fewCols noRank⟩

/-- Five rows and seven columns on a process grid of three rows and two columns. -/
theorem mesh_partition_five : ∃ decomp, MeshPartition (-2) 3 2 6 5 7 decomp :=
  mesh_partition (-2) 3 2 6 5 7 (by decide) (by decide) (by decide) (by decide) (by decide)
    (by decide)

end HandsOn.Life
