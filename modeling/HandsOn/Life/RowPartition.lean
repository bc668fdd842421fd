import HandsOn.Life.RowBlock
import HandsOn.Semantics.CheckedInt

/-!
# The row partition in `int` arithmetic

`MLIFE_myrows` and `MLIFE_myrowoffset` as the code computes them. Neither overflows for any
number of rows and processes, so that both compute the numbers of the row blocks.
-/

namespace HandsOn.Life

open HandsOn.Semantics.CheckedInt

/-- `MLIFE_myrows`, in `int` arithmetic -/
def mlifeMyrows (rows rank nprocs : Int32) : Option Int32 := do
  let myrows ← div? rows nprocs
  if rank < (← rem? rows nprocs) then add? myrows 1 else return myrows

/-- `MLIFE_myrowoffset`, in `int` arithmetic -/
def mlifeMyrowoffset (rows rank nprocs : Int32) : Option Int32 := do
  let myoffset ← mul? rank (← div? rows nprocs)
  if rank > (← rem? rows nprocs) then add? myoffset (← rem? rows nprocs)
  else add? myoffset rank

/-- The blocks of rows that the ranks compute. -/
structure RowPartition (rows nprocs : Int32) (myrows myoffset : Int32 → Int32) : Prop where
  /-- Nothing overflows. -/
  defined : ∀ rank, 0 ≤ rank → rank < nprocs →
    mlifeMyrows rows rank nprocs = some (myrows rank) ∧
      mlifeMyrowoffset rows rank nprocs = some (myoffset rank)
  nonneg : ∀ rank, 0 ≤ rank → rank < nprocs → 0 ≤ myrows rank ∧ 0 ≤ myoffset rank
  first : myoffset 0 = 0
  next : ∀ rank, 0 ≤ rank → rank < nprocs - 1 →
    (myoffset rank).toInt + (myrows rank).toInt = (myoffset (rank + 1)).toInt
  last : (myoffset (nprocs - 1)).toInt + (myrows (nprocs - 1)).toInt = rows.toInt
  /-- Every row is in one block. -/
  covers : ∀ row : Int, 0 ≤ row → row < rows.toInt → ∃! rank : Int32,
    (0 ≤ rank ∧ rank < nprocs) ∧ (myoffset rank).toInt ≤ row ∧
      row < (myoffset rank).toInt + (myrows rank).toInt
  /-- No block has anything else. -/
  within : ∀ rank, 0 ≤ rank → rank < nprocs →
    (myoffset rank).toInt + (myrows rank).toInt ≤ rows.toInt
  balanced : ∀ rank, 0 ≤ rank → rank < nprocs → ∀ other, 0 ≤ other → other < nprocs →
    (myrows rank).toInt ≤ (myrows other).toInt + 1

/-- The rows are shared out evenly. -/
theorem myrows_balanced (rows rank other nprocs : ℕ) :
    myrows rows rank nprocs ≤ myrows rows other nprocs + 1 := by
  unfold myrows
  split_ifs <;> omega

theorem myrows_le (rows : ℕ) {rank nprocs : ℕ} (inside : rank < nprocs) :
    myrows rows rank nprocs ≤ rows :=
  (Nat.le_add_left _ _).trans (myrowoffset_add_le rows inside)

theorem myrowoffset_le (rows : ℕ) {rank nprocs : ℕ} (inside : rank < nprocs) :
    myrowoffset rows rank nprocs ≤ rows :=
  (Nat.le_add_right _ _).trans (myrowoffset_add_le rows inside)

section Computed

variable {rows rank nprocs : ℕ} (fewRows : rows < 2 ^ 31) (fewProcs : nprocs < 2 ^ 31)
  (inside : rank < nprocs)
include fewRows fewProcs inside

/-- `MLIFE_myrows` computes the length of a block. -/
theorem mlifeMyrows_ofNat :
    mlifeMyrows (Int32.ofNat rows) (Int32.ofNat rank) (Int32.ofNat nprocs) =
      some (Int32.ofNat (myrows rows rank nprocs)) := by
  have positive := Nat.zero_lt_of_lt inside
  have remainder := Nat.mod_lt rows positive
  have fits := myrows_le rows inside
  unfold myrows at fits ⊢
  rw [mlifeMyrows, div?_ofNat fewRows fewProcs positive, rem?_ofNat fewRows fewProcs positive]
  simp only [Option.bind_eq_bind, Option.bind_some,
    ofNat_lt_iff (inside.trans fewProcs) (remainder.trans fewProcs)]
  by_cases early : rank < rows % nprocs
  · rw [if_pos early] at fits
    rw [if_pos early, if_pos early]
    exact add?_ofNat (fits.trans_lt fewRows)
  · rw [if_neg early, if_neg early]
    rfl

/-- `MLIFE_myrowoffset` computes where a block begins. -/
theorem mlifeMyrowoffset_ofNat :
    mlifeMyrowoffset (Int32.ofNat rows) (Int32.ofNat rank) (Int32.ofNat nprocs) =
      some (Int32.ofNat (myrowoffset rows rank nprocs)) := by
  have positive := Nat.zero_lt_of_lt inside
  have remainder := Nat.mod_lt rows positive
  have quotient : rows / nprocs < 2 ^ 31 := (Nat.div_le_self rows nprocs).trans_lt fewRows
  have fits := (myrowoffset_le rows inside).trans_lt fewRows
  unfold myrowoffset at fits ⊢
  have product : rank * (rows / nprocs) < 2 ^ 31 := (Nat.le_add_right _ _).trans_lt fits
  rw [mlifeMyrowoffset, div?_ofNat fewRows fewProcs positive, Option.bind_eq_bind,
    Option.bind_some, mul?_ofNat (inside.trans fewProcs) quotient product,
    rem?_ofNat fewRows fewProcs positive]
  simp only [Option.bind_some, gt_iff_lt,
    ofNat_lt_iff (remainder.trans fewProcs) (inside.trans fewProcs)]
  by_cases late : rows % nprocs < rank
  · rw [if_pos late] at fits
    rw [if_pos late, if_pos late]
    exact add?_ofNat fits
  · rw [if_neg late] at fits
    rw [if_neg late, if_neg late]
    exact add?_ofNat fits

end Computed

section Partition

variable {rows nprocs : ℕ} (fewRows : rows < 2 ^ 31) (fewProcs : nprocs < 2 ^ 31)
include fewRows

theorem toInt_myrows {rank : ℕ} (inside : rank < nprocs) :
    (Int32.ofNat (myrows rows rank nprocs)).toInt = myrows rows rank nprocs :=
  toInt_ofNat ((myrows_le rows inside).trans_lt fewRows)

theorem toInt_myrowoffset {rank : ℕ} (inside : rank < nprocs) :
    (Int32.ofNat (myrowoffset rows rank nprocs)).toInt = myrowoffset rows rank nprocs :=
  toInt_ofNat ((myrowoffset_le rows inside).trans_lt fewRows)

include fewProcs

/-- The rank whose block has a row. -/
theorem existsUnique_block (positive : 0 < nprocs) {row : Int} (first : 0 ≤ row)
    (last : row < rows) :
    ∃! rank : Int32, (0 ≤ rank ∧ rank < Int32.ofNat nprocs) ∧
      (Int32.ofNat (myrowoffset rows rank.toNatClampNeg nprocs)).toInt ≤ row ∧
      row < (Int32.ofNat (myrowoffset rows rank.toNatClampNeg nprocs)).toInt +
        (Int32.ofNat (myrows rows rank.toNatClampNeg nprocs)).toInt := by
  have block : ∀ other < nprocs,
      (Int32.ofNat (myrowoffset rows (Int32.ofNat other).toNatClampNeg nprocs)).toInt ≤ row ∧
        row < (Int32.ofNat (myrowoffset rows (Int32.ofNat other).toNatClampNeg nprocs)).toInt +
          (Int32.ofNat (myrows rows (Int32.ofNat other).toNatClampNeg nprocs)).toInt ↔
      (myrowoffset rows other nprocs : Int) ≤ row ∧
        row < (myrowoffset rows other nprocs + myrows rows other nprocs : ℕ) := by
    intro other inside
    rw [Int32.toNatClampNeg_ofNat_of_lt (inside.trans fewProcs), toInt_myrowoffset fewRows inside,
      toInt_myrows fewRows inside, Nat.cast_add]
  obtain ⟨row, rfl⟩ := Int.eq_ofNat_of_zero_le first
  simp only [Nat.cast_le, Nat.cast_lt] at block last
  obtain ⟨rank, inside, here⟩ := exists_block positive last
  refine ⟨Int32.ofNat rank, ⟨⟨?_, ?_⟩, (block rank inside).mpr here⟩, ?_⟩
  · exact ofNat_nonneg (inside.trans fewProcs)
  · exact (ofNat_lt_iff (inside.trans fewProcs) fewProcs).mpr inside
  · rintro other ⟨⟨low, high⟩, there⟩
    obtain ⟨other, small, rfl⟩ := exists_ofNat low
    obtain ⟨starts, ends⟩ := (block other ((ofNat_lt_iff small fewProcs).mp high)).mp there
    rw [block_unique starts ends here.1 here.2]

end Partition

/-- The row blocks of natural numbers are a partition in `int`. -/
theorem rowPartition_ofNat {rows nprocs : ℕ} (fewRows : rows < 2 ^ 31) (fewProcs : nprocs < 2 ^ 31)
    (positive : 0 < nprocs) :
    RowPartition (Int32.ofNat rows) (Int32.ofNat nprocs)
      (fun rank => Int32.ofNat (myrows rows rank.toNatClampNeg nprocs))
      (fun rank => Int32.ofNat (myrowoffset rows rank.toNatClampNeg nprocs)) := by
  have rank_eq : ∀ rank < nprocs, (Int32.ofNat rank).toNatClampNeg = rank := fun rank inside =>
    Int32.toNatClampNeg_ofNat_of_lt (inside.trans fewProcs)
  have final : Int32.ofNat nprocs - 1 = Int32.ofNat (nprocs - 1) :=
    (Int32.ofNat_sub nprocs 1 positive).symm
  have before : nprocs - 1 < nprocs := Nat.sub_one_lt_of_lt positive
  constructor
  · rw [forall_lt_ofNat fewProcs]
    intro rank inside
    rw [rank_eq rank inside]
    exact ⟨mlifeMyrows_ofNat fewRows fewProcs inside,
      mlifeMyrowoffset_ofNat fewRows fewProcs inside⟩
  · rw [forall_lt_ofNat fewProcs]
    intro rank inside
    rw [rank_eq rank inside]
    exact ⟨ofNat_nonneg ((myrows_le rows inside).trans_lt fewRows),
      ofNat_nonneg ((myrowoffset_le rows inside).trans_lt fewRows)⟩
  · exact congrArg Int32.ofNat (myrowoffset_zero rows nprocs)
  · rw [final, forall_lt_ofNat (before.trans fewProcs)]
    intro rank inner
    have inside : rank < nprocs := by omega
    have inside' : rank + 1 < nprocs := by omega
    have next : Int32.ofNat rank + 1 = Int32.ofNat (rank + 1) := (Int32.ofNat_add rank 1).symm
    rw [next, rank_eq rank inside, rank_eq (rank + 1) inside', toInt_myrowoffset fewRows inside,
      toInt_myrows fewRows inside, toInt_myrowoffset fewRows inside', ← Nat.cast_add,
      ← myrowoffset_succ]
  · rw [final, rank_eq _ before, toInt_myrowoffset fewRows before, toInt_myrows fewRows before,
      toInt_ofNat fewRows, ← Nat.cast_add, ← myrowoffset_succ, Nat.sub_add_cancel positive,
      myrowoffset_nprocs rows positive]
  · intro row first last
    exact existsUnique_block fewRows fewProcs positive first (toInt_ofNat fewRows ▸ last)
  · rw [forall_lt_ofNat fewProcs]
    intro rank inside
    rw [rank_eq rank inside, toInt_myrowoffset fewRows inside, toInt_myrows fewRows inside,
      toInt_ofNat fewRows, ← Nat.cast_add, Nat.cast_le]
    exact myrowoffset_add_le rows inside
  · rw [forall_lt_ofNat fewProcs]
    intro rank inside
    rw [forall_lt_ofNat fewProcs]
    intro other inside'
    rw [rank_eq rank inside, rank_eq other inside', toInt_myrows fewRows inside,
      toInt_myrows fewRows inside']
    exact_mod_cast myrows_balanced rows rank other nprocs

/-- `MLIFE_myrows` and `MLIFE_myrowoffset` partition the rows. -/
theorem row_partition (rows nprocs : Int32) (nonneg : 0 ≤ rows) (positive : 1 ≤ nprocs) :
    ∃ myrows myoffset, RowPartition rows nprocs myrows myoffset := by
  obtain ⟨r, fewRows, rfl⟩ := exists_ofNat nonneg
  obtain ⟨n, fewProcs, rfl, some⟩ := exists_ofNat_pos positive
  exact ⟨_, _, rowPartition_ofNat fewRows fewProcs some⟩

/-- Three rows on four processes, the last of which has none. -/
theorem row_partition_three : ∃ myrows myoffset, RowPartition 3 4 myrows myoffset :=
  row_partition 3 4 (by decide) (by decide)

end HandsOn.Life
