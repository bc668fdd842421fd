import Mathlib.Data.List.MinMax
import Mathlib.Data.List.Nodup
import Mathlib.Data.Nat.Notation
import Mathlib.Order.Nat

/-!
# Calls of `malloc` and `free`

Which regions are allocated follows from the calls that a program made. An allocator gives a
region that is not allocated; to free one that is not is undefined, whoever had its address
before.
-/

namespace HandsOn.Semantics

/-- A call that returned. -/
inductive HeapCall (Pointer : Type) where
  | malloc (pointer : Pointer)
  | free (pointer : Pointer)

variable {Pointer : Type} [DecidableEq Pointer]

/-- The regions that are allocated after some calls, the last call first. -/
def allocated : List (HeapCall Pointer) → List Pointer
  | [] => []
  | .malloc pointer :: calls => pointer :: allocated calls
  | .free pointer :: calls => (allocated calls).erase pointer

/-- `free`, where it is defined. -/
def free (pointer : Pointer) (calls : List (HeapCall Pointer)) :
    Option (List (HeapCall Pointer)) :=
  if pointer ∈ allocated calls then some (.free pointer :: calls) else none

theorem mem_free_iff {pointer : Pointer} {calls after : List (HeapCall Pointer)} :
    after ∈ free pointer calls ↔ pointer ∈ allocated calls ∧ after = .free pointer :: calls := by
  rw [free, Option.mem_def, Option.ite_none_right_eq_some, Option.some.injEq, eq_comm]

/-- What `malloc` returns after some calls, as long as there is memory. -/
structure Allocator (Pointer : Type) [DecidableEq Pointer] where
  address : List (HeapCall Pointer) → ℕ → Pointer
  fresh : ∀ calls size, address calls size ∉ allocated calls

namespace Allocator

variable (memory : Allocator Pointer)

/-- A region that is allocated is apart from the others. -/
theorem nodup_address (calls : List (HeapCall Pointer)) {others : List Pointer}
    (are : allocated calls = others) (apart : others.Nodup) (size : ℕ) :
    (memory.address calls size :: others).Nodup :=
  List.nodup_cons.mpr ⟨are ▸ memory.fresh calls size, apart⟩

end Allocator

/-! ### An allocator with lists of freed regions -/

/-- The regions that were freed, the last one first. -/
def freed : List (HeapCall Pointer) → List Pointer
  | [] => []
  | .malloc pointer :: calls => (freed calls).erase pointer
  | .free pointer :: calls => pointer :: freed calls

/-- Sizes are rounded up to multiples of 16 with a header of 8 bytes. -/
def sizeClass (size : ℕ) : ℕ := max 2 ((size + 23) / 16)

/-- The region of a size class that was freed last. -/
def recycled (calls : List (HeapCall (ℕ × ℕ))) (size : ℕ) : Option (ℕ × ℕ) :=
  (freed calls).find? fun region => region.1 = sizeClass size ∧ region ∉ allocated calls

/-- A request gets the region of its size class that was freed last, or a new one. Regions are
numbered in their size classes. -/
def recycling : Allocator (ℕ × ℕ) where
  address calls size := (recycled calls size).getD
    (sizeClass size, ((allocated calls).map Prod.snd).foldr max 0 + 1)
  fresh calls size := by
    cases found : recycled calls size with
    | some region =>
        have kept := List.find?_some found
        exact (of_decide_eq_true kept).2
    | none =>
        intro listed
        have numbered := List.mem_map_of_mem (f := Prod.snd) listed
        have below : _ + 1 ≤ ((allocated calls).map Prod.snd).foldr max 0 :=
          List.le_max_of_le numbered le_rfl
        exact Nat.not_succ_le_self _ below

end HandsOn.Semantics
