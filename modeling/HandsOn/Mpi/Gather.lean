import Mathlib.Data.Int.Notation
import Mathlib.Data.List.Basic

/-!
# Gathering arrays

`MPI_Gather` collects one element of each rank, `MPI_Gatherv` a block of each rank at a
displacement of the root's buffer. A block that is not as long as the root expects, or
that does not fit in the buffer, is erroneous.
-/

namespace HandsOn.Mpi

universe u

variable {Value : Type u}

/-- Receive a block of `count` elements at `disp`. -/
def receiveAt (disp count : ℕ) (block buffer : List Value) : Option (List Value) :=
  if block.length = count ∧ disp + count ≤ buffer.length then
    some (buffer.take disp ++ (block ++ buffer.drop (disp + count)))
  else
    none

/-- `MPI_Gather` of one element -/
def gather (nprocs : ℕ) (sent : ℕ → Value) : List Value := (List.range nprocs).map sent

/-- `MPI_Gatherv` -/
def gatherv (nprocs : ℕ) (sent : ℕ → List Value) (recvcounts displs : List ℕ)
    (buffer : List Value) : Option (List Value) :=
  (List.range nprocs).foldlM (fun buffer rank =>
    receiveAt (displs.getD rank 0) (recvcounts.getD rank 0) (sent rank) buffer) buffer

/-- Blocks that follow each other fill the front of the buffer. -/
theorem gatherv_front {nprocs : ℕ} {sent : ℕ → List Value} {recvcounts displs : List ℕ}
    {buffer : List Value}
    (counts : ∀ rank < nprocs, recvcounts.getD rank 0 = (sent rank).length)
    (consecutive : ∀ rank < nprocs,
      displs.getD rank 0 = ((List.range rank).flatMap sent).length)
    (fits : ((List.range nprocs).flatMap sent).length ≤ buffer.length) :
    gatherv nprocs sent recvcounts displs buffer =
      some ((List.range nprocs).flatMap sent ++
        buffer.drop ((List.range nprocs).flatMap sent).length) := by
  induction nprocs with
  | zero => rfl
  | succ nprocs ih =>
      rw [List.range_succ, List.flatMap_append, List.flatMap_singleton] at fits ⊢
      rw [List.length_append] at fits
      have before := ih (fun rank below => counts rank (Nat.lt_succ_of_lt below))
        (fun rank below => consecutive rank (Nat.lt_succ_of_lt below)) (by omega)
      have count := counts nprocs (Nat.lt_succ_self _)
      have disp := consecutive nprocs (Nat.lt_succ_self _)
      rw [gatherv] at before
      rw [gatherv, List.range_succ, List.foldlM_append, before]
      generalize (List.range nprocs).flatMap sent = front at *
      simp only [List.foldlM_cons, List.foldlM_nil, Option.bind_eq_bind, Option.bind_some]
      rw [count, disp, receiveAt, if_pos ⟨rfl, by simp; omega⟩]
      simp [List.drop_append, List.drop_drop]

/-- Blocks that follow each other and fill the buffer are gathered one after the other. -/
theorem gatherv_eq_flatMap {nprocs : ℕ} {sent : ℕ → List Value} {recvcounts displs : List ℕ}
    {buffer : List Value}
    (counts : ∀ rank < nprocs, recvcounts.getD rank 0 = (sent rank).length)
    (consecutive : ∀ rank < nprocs,
      displs.getD rank 0 = ((List.range rank).flatMap sent).length)
    (fills : buffer.length = ((List.range nprocs).flatMap sent).length) :
    gatherv nprocs sent recvcounts displs buffer = some ((List.range nprocs).flatMap sent) := by
  rw [gatherv_front counts consecutive (Nat.le_of_eq fills.symm), ← fills, List.drop_length,
    List.append_nil]

end HandsOn.Mpi
