import HandsOn.Life.MpiioCheckpoint

/-!
# The file offsets of large grids

`MLIFEIO_Checkpoint` and `MLIFEIO_Restart` of `mlife-io-mpiio.c` multiply and add in `int`
before they widen the result. A grid whose blocks all fit into memory may have offsets that
do not fit into an `int`, from some rank on.
-/

namespace HandsOn.Life.Mpiio

open HandsOn.Mpi

/-- `life` can allocate the block of a rank: `(myrows+2) * (cols+2) * sizeof(int)` is an `int`. -/
def Allocates (rows cols nprocs rank : ℕ) : Prop :=
  (myrows rows rank nprocs + 2) * (cols + 2) * 4 < 2 ^ 31

instance (rows cols nprocs rank : ℕ) : Decidable (Allocates rows cols nprocs rank) :=
  inferInstanceAs (Decidable (_ < _))

/-- The rows of a rank are written and read at their place in the file. -/
def OffsetExact (rows cols nprocs rank : ℕ) : Prop :=
  myfileoffset (Int32.ofNat (myrowoffset rows rank nprocs)) (Int32.ofNat cols) =
    ((4 * (myrowoffset rows rank nprocs * cols + 3) : ℕ) : Int)

instance (rows cols nprocs rank : ℕ) : Decidable (OffsetExact rows cols nprocs rank) :=
  inferInstanceAs (Decidable (_ = _))

/-- An offset is four times an `int`. -/
theorem myfileoffset_lt (myoffset cols : Int32) : myfileoffset myoffset cols < 4 * 2 ^ 31 := by
  have high := (myoffset * cols + 3).toInt_lt
  rw [myfileoffset, byteOffset_eq _ (by decide)]
  omega

/-- The offset of a rank is exact where the `int` that is multiplied does not overflow. -/
theorem offsetExact_iff (rows cols nprocs rank : ℕ) :
    OffsetExact rows cols nprocs rank ↔ myrowoffset rows rank nprocs * cols + 3 < 2 ^ 31 := by
  constructor
  · intro exact
    have bound := myfileoffset_lt (Int32.ofNat (myrowoffset rows rank nprocs)) (Int32.ofNat cols)
    rw [exact] at bound
    omega
  · intro fits
    rw [OffsetExact, myfileoffset_eq fits, Nat.mul_comm]

/-- The ranks before a rank have smaller offsets. -/
theorem offset_le (rows cols : ℕ) {rank nprocs : ℕ} (inside : rank < nprocs) :
    myrowoffset rows rank nprocs * cols ≤ myrowoffset rows (nprocs - 1) nprocs * cols :=
  Nat.mul_le_mul_right cols (myrowoffset_mono rows nprocs (Nat.le_sub_one_of_lt inside))

/-- The offset of a rank is exact exactly if `myoffset * cols + 3` is an `int`, and those of all
ranks are exact exactly if that of the last one is. -/
theorem offsets_exact_iff (rows cols nprocs : ℕ) (positive : 0 < nprocs) :
    (∀ rank < nprocs, OffsetExact rows cols nprocs rank ↔
      myrowoffset rows rank nprocs * cols + 3 < 2 ^ 31) ∧
    ((∀ rank < nprocs, OffsetExact rows cols nprocs rank) ↔
      myrowoffset rows (nprocs - 1) nprocs * cols + 3 < 2 ^ 31) := by
  refine ⟨fun rank _ => offsetExact_iff rows cols nprocs rank, fun exact => ?_, fun last => ?_⟩
  · exact (offsetExact_iff rows cols nprocs _).mp (exact _ (Nat.sub_one_lt_of_lt positive))
  · intro rank inside
    have before := offset_le rows cols inside
    exact (offsetExact_iff rows cols nprocs rank).mpr (by omega)

/-- The default grid on four processes. -/
theorem offsets_exact_default :
    (∀ rank < 4, OffsetExact 25 70 4 rank) ∧ myrowoffset 25 3 4 * 70 + 3 = 1333 :=
  ⟨(offsets_exact_iff 25 70 4 (by decide)).2.mpr (by decide), rfl⟩

/-- A grid of 50000 rows and columns on eight processes, each of which can allocate its block:
the last process writes its rows at a negative offset. -/
theorem large_grid_not_exact :
    (∀ rank < 8, Allocates 50000 50000 8 rank) ∧
      myfileoffset (Int32.ofNat (myrowoffset 50000 7 8)) (Int32.ofNat 50000) = -8429869172 ∧
      ¬ OffsetExact 50000 50000 8 7 := by
  have offset : myfileoffset (Int32.ofNat (myrowoffset 50000 7 8)) (Int32.ofNat 50000) =
      -8429869172 := by decide
  refine ⟨by decide, offset, fun exact => ?_⟩
  rw [OffsetExact, offset] at exact
  exact absurd exact (by decide)

end HandsOn.Life.Mpiio
