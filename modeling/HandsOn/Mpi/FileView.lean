import HandsOn.Mpi.View
import HandsOn.Posix.File
import HandsOn.Semantics.Blocks
import HandsOn.Semantics.CheckedInt
import Mathlib.Data.List.Induction

/-!
# File views with tiles

A view repeats its filetype over the file, one extent after the other. The bytes of a process
are counted through the tiles; the subarray of a row gives each process a part of each row.
-/

namespace HandsOn.Mpi

open Posix Semantics

/-- A view of a file: where it begins, the places of the bytes of a tile and their extent. -/
structure FileView where
  disp : ℕ
  places : List ℕ
  extent : ℕ

namespace FileView

/-- The view of a filetype without negative displacements. -/
def ofFiletype (disp : ℕ) (filetype : Datatype) (extent : ℕ) : FileView where
  disp := disp
  places := filetype.positions.map Int.toNat
  extent := extent

variable (view : FileView)

/-- The place in the file of a byte of the view. -/
def place (byte : ℕ) : ℕ :=
  view.disp + byte / view.places.length * view.extent +
    view.places.getD (byte % view.places.length) 0

/-- `MPI_File_write` of some bytes at a byte of the view. -/
def write (content : List UInt8) (byte : ℕ) (bytes : List UInt8) : List UInt8 :=
  bytes.zipIdx.foldl (fun content entry => pwrite content (view.place (byte + entry.2)) [entry.1])
    content

/-- `MPI_File_read` of some bytes at a byte of the view; a read at the end is short. -/
def read (content : List UInt8) (byte count : ℕ) : List UInt8 :=
  (List.range count).filterMap fun k => content[view.place (byte + k)]?

variable {view} {byte offset count : ℕ}

/-- Where the bytes are consecutive in the file, they are written at once. -/
theorem write_eq (content : List UInt8) {bytes : List UInt8}
    (consecutive : ∀ k < bytes.length, view.place (byte + k) = offset + k) :
    view.write content byte bytes = pwrite content offset bytes := by
  rw [write]
  induction bytes using List.reverseRecOn with
  | nil => exact (if_pos rfl).symm
  | append_singleton bytes last ih =>
      have earlier : ∀ k < bytes.length, view.place (byte + k) = offset + k := fun k before =>
        consecutive k (by rw [List.length_append]; omega)
      rw [List.zipIdx_append, List.foldl_append, ih earlier, Nat.zero_add]
      simp only [List.zipIdx_cons, List.zipIdx_nil, List.foldl_cons, List.foldl_nil]
      rw [consecutive bytes.length (by simp), pwrite_append]
      split
      case isTrue nothing => rw [nothing, List.nil_append]
      case isFalse => rfl

/-- There they are read at once. -/
theorem read_eq (content : List UInt8)
    (consecutive : ∀ k < count, view.place (byte + k) = offset + k) :
    view.read content byte count = pread content offset count := by
  rw [read]
  induction count with
  | zero => rfl
  | succ count ih =>
      rw [List.range_succ, List.filterMap_append, ih fun k before => consecutive k (by omega),
        ← pread_append, List.filterMap_cons, List.filterMap_nil,
        consecutive count (Nat.lt_succ_self _), pread, pread, List.take_one, List.head?_drop]
      cases content[offset + count]? <;> rfl

end FileView

namespace Datatype

/-- `MPI_Type_contiguous`, which refuses a negative count. -/
def contiguous (count : Int32) (old : Datatype) : Option Datatype :=
  if 0 ≤ count then some (old.block count.toInt.toNat 0) else none

/-- `MPI_Type_create_subarray` with its checks: in each dimension the part is not empty and lies
in the whole. -/
def createSubarray (sizes subsizes starts : List Int32) (old : Datatype) : Option Datatype :=
  if (sizes.zip (subsizes.zip starts)).all fun (size, subsize, start) =>
      1 ≤ subsize.toInt ∧ 0 ≤ start.toInt ∧ start.toInt + subsize.toInt ≤ size.toInt then
    some (subarray (sizes.map (·.toInt.toNat)) (subsizes.map (·.toInt.toNat))
      (starts.map (·.toInt.toNat)) old)
  else none

variable {size count : ℕ}

theorem contiguous_ofNat {old : Datatype} (small : count < 2 ^ 31) :
    contiguous (Int32.ofNat count) old = some (old.block count 0) := by
  rw [contiguous, if_pos (CheckedInt.ofNat_nonneg small), CheckedInt.toInt_ofNat small,
    Int.toNat_natCast]

/-- A part of a row passes the checks. -/
theorem createSubarray_row (old : Datatype) {whole subsize start : ℕ} (some' : 0 < subsize)
    (inside : start + subsize ≤ whole) (small : whole < 2 ^ 31) :
    createSubarray [1, Int32.ofNat whole] [1, Int32.ofNat subsize] [0, Int32.ofNat start] old =
      some (subarray [1, whole] [1, subsize] [0, start] old) := by
  have wholeInt : (Int32.ofNat whole).toInt = whole := CheckedInt.toInt_ofNat small
  have subInt : (Int32.ofNat subsize).toInt = subsize := CheckedInt.toInt_ofNat (by omega)
  have startInt : (Int32.ofNat start).toInt = start := CheckedInt.toInt_ofNat (by omega)
  rw [createSubarray, if_pos]
  · simp only [List.map_cons, List.map_nil, wholeInt, subInt, startInt, Int32.toInt_one,
      Int32.toInt_zero, Int.toNat_natCast, Int.toNat_one, Int.toNat_zero]
  · simp only [List.zip_cons_cons, List.zip_nil_left, List.all_cons, List.all_nil, wholeInt, subInt,
      startInt, Int32.toInt_one, Int32.toInt_zero, Bool.and_eq_true, decide_eq_true_eq]
    exact ⟨by decide, by omega, trivial⟩

theorem size_block_basic (size count : ℕ) (disp : Int) :
    ((basic size).block count disp).size = count * size := by
  rw [Datatype.size, typemap_block_basic, List.map_map]
  simp [Function.comp_def]

/-- A block of a basic datatype extends over its elements. -/
theorem extent_block_basic (some' : 0 < count) :
    ((basic size).block count 0).extent = ((count * size : ℕ) : Int) := by
  have typemap := typemap_block_basic size count 0
  simp only [zero_add] at typemap
  have lower : ((basic size).block count 0).lb = 0 := by
    rw [lb, typemap, List.map_map]
    refine congrArg (Option.getD · 0) (List.min?_eq_some_iff.mpr ⟨?_, ?_⟩)
    · exact List.mem_map.mpr ⟨0, List.mem_range.mpr some', Int.zero_mul _⟩
    · intro place inside
      obtain ⟨i, -, rfl⟩ := List.mem_map.mp inside
      exact Int.natCast_nonneg (i * size)
  have upper : ((basic size).block count 0).ub = ((count * size : ℕ) : Int) := by
    rw [ub, typemap, List.map_map]
    refine congrArg (Option.getD · 0) (List.max?_eq_some_iff.mpr ⟨?_, ?_⟩)
    · refine List.mem_map.mpr ⟨count - 1, List.mem_range.mpr (by omega), ?_⟩
      have last : (count - 1) * size + size = count * size := by
        rw [← Nat.succ_mul, Nat.succ_eq_add_one, Nat.sub_add_cancel some']
      rw [Function.comp_apply, ← Nat.cast_mul, ← Nat.cast_add, last]
    · intro place inside
      obtain ⟨i, below, rfl⟩ := List.mem_map.mp inside
      have within := Nat.mul_le_mul_right size (Nat.succ_le_of_lt (List.mem_range.mp below))
      rw [Nat.succ_mul] at within
      rw [Function.comp_apply, ← Nat.cast_mul, ← Nat.cast_add]
      exact Int.ofNat_le.mpr within
  rw [extent, lower, upper, sub_zero]

/-- The bytes of a subarray of a datatype without gaps. -/
theorem positions_subarray {old : Datatype} (bytes : old.positions = (List.range size).map (↑))
    (extent : old.extent = (size : Int)) (sizes subsizes starts : List ℕ) :
    (subarray sizes subsizes starts old).positions =
      (boxPlaces sizes subsizes starts).flatMap fun place : ℕ =>
        (List.range size).map fun byte : ℕ => ((place * size + byte : ℕ) : Int) := by
  have shifted : ∀ disp : Int, (old.shift disp).positions = old.positions.map (disp + ·) := by
    intro disp
    simp only [positions, shift, List.flatMap_map, List.map_flatMap, List.map_map]
    simp only [Function.comp_def, add_assoc]
  rw [subarray, positions_concat, List.flatMap_map]
  refine List.flatMap_congr fun place _ => ?_
  rw [shifted, bytes, extent, List.map_map]
  refine List.map_congr_left fun byte _ => ?_
  push_cast
  rfl

/-- A part of a row. -/
theorem boxPlaces_row (size subsize start : ℕ) :
    boxPlaces [1, size] [1, subsize] [0, start] = List.range' start subsize := by
  simp only [boxPlaces, List.range'_one, List.flatMap_singleton, List.map_cons, List.map_nil,
    Nat.zero_mul, Nat.zero_add, List.prod_nil, Nat.mul_one, Nat.add_zero, List.map_id']
  exact (List.flatMap_pure_eq_map _ _).trans (List.map_id' _)

/-- The bytes of a part of a row of such elements are consecutive. -/
theorem positions_row {old : Datatype} (bytes : old.positions = (List.range size).map (↑))
    (extent : old.extent = (size : Int)) (whole subsize start : ℕ) :
    (subarray [1, whole] [1, subsize] [0, start] old).positions.map Int.toNat =
      List.range' (start * size) (subsize * size) := by
  rw [positions_subarray bytes extent, boxPlaces_row, List.range'_eq_map_range,
    List.range'_eq_map_range, List.flatMap_map, List.map_flatMap, ← flatMap_range_mul]
  refine List.flatMap_congr fun i _ => ?_
  rw [List.map_map]
  refine List.map_congr_left fun byte _ => ?_
  rw [Function.comp_apply, Int.toNat_natCast, Nat.add_mul, Nat.add_assoc]

end Datatype

end HandsOn.Mpi
