import HandsOn.Mpi.Datatype
import HandsOn.Mutex.Waitlist
import Mathlib.Data.List.GetD

/-!
# The waitlist datatype

`MPIMUTEX_Create` declares its displacements as `MPI_Aint`, and `MPI_Type_indexed` reads
an array of `int`. Where an `MPI_Aint` is a little-endian word of eight bytes the two
integers that `MPI_Type_indexed` finds are the halves of `disps[0]`.
-/

namespace HandsOn.Mutex

open Mpi

variable (nprocs myrank : ℕ)

/-- `int blklens[2]` -/
def blklens : List ℕ := [myrank, nprocs - myrank - 1]

/-- `MPI_Aint disps[2]` -/
def disps : List Int64 := [0, Int64.ofNat (myrank + 1)]

/-- What a function that expects an array of `int` reads at `disps`. -/
def dispsRead : List Int :=
  (littleEndianInt.decodeAll 2 (littleEndianAint.encodeAll (disps myrank))).map Int32.toInt

/-- The `waitlisttype` that `MPIMUTEX_Create` builds. -/
def waitlisttype : Datatype := Datatype.byte.indexed 2 (blklens nprocs myrank) (dispsRead myrank)

/-- `MPI_Get` of one element of a datatype at displacement 0 of a window of bytes; `none`
is an access outside the window. -/
def get (type : Datatype) (window : List UInt8) : Option (List UInt8) :=
  if ∀ position ∈ type.positions, 0 ≤ position ∧ position < window.length then
    some (type.positions.map fun position => window.getD position.toNat 0)
  else
    none

/-- What `MPIMUTEX_Lock` and `MPIMUTEX_Unlock` assume of a waitlist datatype. -/
structure Skips (type : Datatype) : Prop where
  /-- The get delivers the bytes of the other ranks, in rank order. -/
  delivers : ∀ waitlist, waitlist.length = nprocs →
    get type waitlist = some (waitlistcopy myrank waitlist)
  /-- The caller's own byte is never fetched. -/
  spares : (myrank : Int) ∉ type.positions

/-- Both halves of the first displacement are zero. -/
theorem dispsRead_eq : dispsRead myrank = [0, 0] := rfl

/-- The bytes of two blocks, the first of which starts the window. -/
theorem positions_blocks (disp : ℕ) :
    (Datatype.byte.indexed 2 (blklens nprocs myrank) [0, disp]).positions =
      (List.range myrank ++ (List.range (nprocs - myrank - 1)).map (disp + ·)).map Nat.cast := by
  simp [Datatype.indexed, blklens, Datatype.positions_concat, Datatype.positions_block_basic,
    Function.comp_def]

/-- The bytes of the other ranks, by the ranks they belong to. -/
theorem waitlistcopy_eq_map {waitlist : List UInt8} (bounded : myrank < waitlist.length) :
    waitlistcopy myrank waitlist = (List.range myrank ++
      (List.range (waitlist.length - myrank - 1)).map (myrank + 1 + ·)).map
        (waitlist.getD · 0) := by
  apply List.ext_getElem
  · simp [length_waitlistcopy bounded]
    omega
  · intro i inside _
    rw [length_waitlistcopy bounded] at inside
    simp only [waitlistcopy, List.getElem_eraseIdx, List.getElem_map]
    by_cases before : i < myrank
    · rw [dif_pos before, List.getElem_append_left (by simpa), List.getElem_range]
      exact (List.getD_eq_getElem _ _ _).symm
    · have place : myrank + 1 + (i - myrank) = i + 1 := by omega
      rw [dif_neg before, List.getElem_append_right (by simpa using before), List.getElem_map,
        List.getElem_range, List.length_range, place]
      exact (List.getD_eq_getElem _ _ _).symm

/-- A get within the window delivers the bytes at the datatype's positions. -/
theorem get_eq_map {type : Datatype} {places : List ℕ} {window : List UInt8}
    (covered : type.positions = places.map Nat.cast)
    (inside : ∀ place ∈ places, place < window.length) :
    get type window = some (places.map (window.getD · 0)) := by
  rw [get, if_pos, covered, List.map_map]
  · rfl
  · rw [covered]
    intro position listed
    obtain ⟨place, member, rfl⟩ := List.mem_map.mp listed
    exact ⟨Int.natCast_nonneg place, Int.ofNat_lt.mpr (inside place member)⟩

/-- The second block starts at its displacement. -/
theorem getElem?_blocks {rest : ℕ} (disp : ℕ) (some_rest : 0 < rest) :
    (List.range myrank ++ (List.range rest).map (disp + ·))[myrank]? = some disp := by
  rw [List.getElem?_append_right (by simp), List.length_range, Nat.sub_self, List.getElem?_map,
    List.getElem?_range some_rest]
  rfl

/-- A datatype of the two blocks skips the caller's byte if the second block starts after that
byte or is empty. -/
theorem skips_blocks (bounded : myrank < nprocs) {disp : ℕ}
    (right : disp = myrank + 1 ∨ myrank + 1 = nprocs) :
    Skips nprocs myrank (Datatype.byte.indexed 2 (blklens nprocs myrank) [0, disp]) := by
  have covered := positions_blocks nprocs myrank disp
  have others : (List.range (nprocs - myrank - 1)).map (disp + ·) =
      (List.range (nprocs - myrank - 1)).map (myrank + 1 + ·) := by
    rcases right with rfl | last
    · rfl
    · have empty : nprocs - myrank - 1 = 0 := by omega
      rw [empty]
      rfl
  rw [others] at covered
  refine ⟨fun waitlist length => ?_, fun own => ?_⟩
  · subst length
    rw [waitlistcopy_eq_map _ bounded]
    apply get_eq_map covered
    intro place listed
    simp only [List.mem_append, List.mem_map, List.mem_range] at listed
    rcases listed with before | ⟨offset, within, rfl⟩ <;> omega
  · rw [covered] at own
    obtain ⟨place, listed, same⟩ := List.mem_map.mp own
    simp only [List.mem_append, List.mem_map, List.mem_range] at listed
    rcases listed with before | ⟨offset, within, rfl⟩ <;> omega

/-- It does so only then. -/
theorem skips_blocks_iff (bounded : myrank < nprocs) (disp : ℕ) :
    Skips nprocs myrank (Datatype.byte.indexed 2 (blklens nprocs myrank) [0, disp]) ↔
      disp = myrank + 1 ∨ myrank + 1 = nprocs := by
  refine ⟨fun skips => ?_, skips_blocks nprocs myrank bounded⟩
  by_contra wrong
  obtain ⟨displaced, follows⟩ := not_or.mp wrong
  have some_rest : 0 < nprocs - myrank - 1 := by omega
  -- a waitlist on which only the rank after the caller waits
  let waitlist : List UInt8 := (List.replicate nprocs 0).set (myrank + 1) 1
  have length : waitlist.length = nprocs := by simp [waitlist]
  have fetched := skips.delivers waitlist length
  rw [waitlistcopy_eq_map _ (by omega), length, get] at fetched
  obtain ⟨_, same⟩ := Option.ite_none_right_eq_some.mp fetched
  have here := congrArg (fun bytes : List UInt8 => bytes[myrank]?) (Option.some.inj same)
  simp only [positions_blocks nprocs myrank disp, List.map_map, List.getElem?_map,
    getElem?_blocks myrank _ some_rest, Option.map_some, Option.some.injEq, Function.comp_apply,
    Int.toNat_natCast] at here
  have waiting : waitlist.getD (myrank + 1) 0 = 1 := by
    have inside : myrank + 1 < nprocs := by omega
    simp [waitlist, List.getD_eq_getElem?_getD, inside]
  have idle : waitlist.getD disp 0 = 0 := by
    by_cases inside : disp < nprocs
    · simp [waitlist, List.getD_eq_getElem?_getD, Ne.symm displaced, inside]
    · simp [waitlist, List.getD_eq_getElem?_getD, inside]
  rw [waiting, idle] at here
  exact absurd here (by decide)

/-- With displacements declared as `int`, the datatype is right for every rank. -/
theorem skips_int_displacements (bounded : myrank < nprocs) :
    Skips nprocs myrank (Datatype.byte.indexed 2 (blklens nprocs myrank) [0, (myrank + 1 : ℕ)]) :=
  skips_blocks nprocs myrank bounded (.inl rfl)

/-- The datatype that `MPIMUTEX_Create` builds is right for the last rank alone. -/
theorem waitlisttype_skips_iff {nprocs myrank : ℕ} (bounded : myrank < nprocs) :
    Skips nprocs myrank (waitlisttype nprocs myrank) ↔ myrank + 1 = nprocs := by
  rw [waitlisttype, dispsRead_eq]
  exact (skips_blocks_iff nprocs myrank bounded 0).trans (by simp)

/-- The last of three ranks fetches the bytes of the first two. -/
theorem waitlisttype_skips_last_of_three : Skips 3 2 (waitlisttype 3 2) :=
  (waitlisttype_skips_iff (by decide)).mpr rfl

/-- The first of two ranks fetches its own byte. -/
theorem waitlisttype_fetches_own : ¬ Skips 2 0 (waitlisttype 2 0) :=
  fun skips => skips.spares (by decide)

end HandsOn.Mutex
