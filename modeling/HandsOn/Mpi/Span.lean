import HandsOn.Mpi.File
import Mathlib.Data.List.Nodup
import Mathlib.Data.List.Perm.Lattice

/-!
# Ranges of bytes

The positions of consecutive bytes, and how those of several ranks make up a longer range: one
after the other, or each element of the range in one of them.
-/

namespace HandsOn.Mpi

universe u

/-- `length` consecutive positions. -/
def span (start : Int) (length : ℕ) : List Int :=
  (List.range length).map fun byte : ℕ => start + byte

@[simp] theorem mem_span {start byte : Int} {length : ℕ} :
    byte ∈ span start length ↔ start ≤ byte ∧ byte < start + length := by
  rw [span, List.mem_map]
  constructor
  · rintro ⟨index, inside, rfl⟩
    have below := List.mem_range.mp inside
    omega
  · rintro ⟨above, below⟩
    exact ⟨(byte - start).toNat, List.mem_range.mpr (by omega), by omega⟩

theorem nodup_span (start : Int) (length : ℕ) : (span start length).Nodup := by
  refine List.nodup_range.map fun first second same => ?_
  exact Int.ofNat.inj (add_left_cancel same)

theorem span_append (start : Int) (first second : ℕ) :
    span start (first + second) = span start first ++ span (start + first) second := by
  rw [span, List.range_add, List.map_append, List.map_map]
  refine congrArg (span start first ++ ·) (List.map_congr_left fun byte _ => ?_)
  simp only [Function.comp]
  push_cast
  ring

/-- The positions that a write goes to. -/
theorem map_fst_writeAt (offset : Int) (bytes : List UInt8) :
    (writeAt offset bytes).map Prod.fst = span offset bytes.length := by
  apply List.ext_getElem
  · simp [writeAt, span]
  · intro index _ _
    simp [writeAt, span]

/-- Ranges that follow each other make up one. -/
theorem spans_consecutive (nprocs : ℕ) (start : Int) (size : ℕ) (before length : ℕ → ℕ)
    (first : before 0 = 0) (next : ∀ rank, before (rank + 1) = before rank + length rank) :
    (List.range nprocs).flatMap (fun rank =>
        span (start + ((before rank * size : ℕ) : Int)) (length rank * size)) =
      span start (before nprocs * size) := by
  induction nprocs with
  | zero => rw [first, Nat.zero_mul]; rfl
  | succ nprocs ih =>
      rw [List.range_succ, List.flatMap_append, ih, List.flatMap_singleton, next, Nat.add_mul,
        span_append]

/-- A byte is in the range of some elements where its element is one of them. -/
theorem mem_span_elements {size : ℕ} (positive : 0 < size) (start : Int) (byte first length : ℕ) :
    start + (byte : Int) ∈ span (start + ((first * size : ℕ) : Int)) (length * size) ↔
      first ≤ byte / size ∧ byte / size < first + length := by
  rw [mem_span, Nat.le_div_iff_mul_le positive, Nat.div_lt_iff_lt_mul positive, Nat.add_mul]
  omega

/-- Ranges of elements of which each element of a longer range is in one. -/
theorem spans_scattered (nprocs : ℕ) (start : Int) {size total : ℕ} (positive : 0 < size)
    (first length : ℕ → ℕ) (inside : ∀ rank < nprocs, first rank + length rank ≤ total)
    (once : ∀ element < total, ∃! rank, rank < nprocs ∧ first rank ≤ element ∧
      element < first rank + length rank) :
    ((List.range nprocs).flatMap fun rank =>
        span (start + ((first rank * size : ℕ) : Int)) (length rank * size)).Perm
      (span start (total * size)) := by
  have whole (byte : ℕ) : start + (byte : Int) ∈ span start (total * size) ↔
      byte / size < total := by
    rw [mem_span, Nat.div_lt_iff_lt_mul positive]
    omega
  have above {byte : Int} {rank : ℕ} (listed : byte ∈ span (start + ((first rank * size : ℕ) : Int))
      (length rank * size)) : ∃ index : ℕ, byte = start + index :=
    ⟨(byte - start).toNat, by rw [mem_span] at listed; omega⟩
  have nodup : ((List.range nprocs).flatMap fun rank =>
      span (start + ((first rank * size : ℕ) : Int)) (length rank * size)).Nodup := by
    refine List.nodup_flatMap.mpr ⟨fun rank _ => nodup_span _ _, ?_⟩
    refine List.nodup_range.pairwise_of_forall_ne fun rank listed other listed' different => ?_
    intro byte own others
    obtain ⟨index, rfl⟩ := above own
    rw [mem_span_elements positive] at own others
    have below := inside rank (List.mem_range.mp listed)
    obtain ⟨_, _, unique⟩ := once (index / size) (Nat.lt_of_lt_of_le own.2 below)
    exact different ((unique rank ⟨List.mem_range.mp listed, own⟩).trans
      (unique other ⟨List.mem_range.mp listed', others⟩).symm)
  refine (List.perm_ext_iff_of_nodup nodup (nodup_span _ _)).mpr fun byte => ?_
  rw [List.mem_flatMap]
  constructor
  · rintro ⟨rank, listed, own⟩
    obtain ⟨index, rfl⟩ := above own
    rw [mem_span_elements positive] at own
    exact (whole index).mpr (Nat.lt_of_lt_of_le own.2 (inside rank (List.mem_range.mp listed)))
  · intro listed
    obtain ⟨index, rfl⟩ : ∃ index : ℕ, byte = start + index :=
      ⟨(byte - start).toNat, by rw [mem_span] at listed; omega⟩
    obtain ⟨rank, ⟨bounded, own⟩, _⟩ := once (index / size) ((whole index).mp listed)
    exact ⟨rank, List.mem_range.mpr bounded, (mem_span_elements positive _ _ _ _).mpr own⟩

end HandsOn.Mpi
