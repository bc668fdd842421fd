import HandsOn.Posix.Tree
import Mathlib.Data.List.Forall2

/-!
# Phases

Processes that call the file system, with a barrier after each phase. What a sequence of phases
ends with is put together from what each of them ends with.
-/

namespace HandsOn.Posix

open Semantics

universe u

variable {Name : Type u}

/-- The calls of each process in a phase. -/
abbrev Phase (Name : Type u) := ℕ → List (Call × Entry Name)

variable {nprocs : ℕ} {phases phases' : List (Phase Name)}

/-- The orders of two sequences of phases. -/
theorem forall₂_split {orders : List (List (Call × Entry Name))}
    (interleaved : List.Forall₂ (Interleaved nprocs) (phases ++ phases') orders) :
    ∃ first second, orders = first ++ second ∧
      List.Forall₂ (Interleaved nprocs) phases first ∧
      List.Forall₂ (Interleaved nprocs) phases' second := by
  refine ⟨orders.take phases.length, orders.drop phases.length,
    (List.take_append_drop _ _).symm, ?_, ?_⟩
  · exact (List.forall₂_take_append _ _ _ interleaved.flip).flip
  · exact (List.forall₂_drop_append _ _ _ interleaved.flip).flip

variable [DecidableEq Name]

/-- However the calls of the processes are interleaved in each phase, they end so. -/
def Ends (nprocs : ℕ) (phases : List (Phase Name)) (tree : FileTree Name)
    (result : Option (FileTree Name)) : Prop :=
  ∀ orders, List.Forall₂ (Interleaved nprocs) phases orders → tree.run orders.flatten = result

variable {phase : Phase Name} {tree tree' : FileTree Name} {result : Option (FileTree Name)}

namespace Ends

theorem nil (nprocs : ℕ) (tree : FileTree Name) : Ends nprocs [] tree (some tree) := by
  intro orders interleaved
  cases interleaved
  rfl

theorem single (ends : ∀ all, Interleaved nprocs phase all → tree.run all = result) :
    Ends nprocs [phase] tree result := by
  intro orders interleaved
  obtain ⟨all, rest, first, nothing, rfl⟩ := List.forall₂_cons_left_iff.mp interleaved
  cases nothing
  rw [List.flatten_singleton]
  exact ends all first

theorem append (first : Ends nprocs phases tree (some tree'))
    (second : Ends nprocs phases' tree' result) :
    Ends nprocs (phases ++ phases') tree result := by
  intro orders interleaved
  obtain ⟨before, after, rfl, here, there⟩ := forall₂_split interleaved
  rw [List.flatten_append, FileTree.run_append_of (first before here)]
  exact second after there

/-- What fails is not continued. -/
theorem append_none (fails : Ends nprocs phases tree none) :
    Ends nprocs (phases ++ phases') tree none := by
  intro orders interleaved
  obtain ⟨before, after, rfl, here, -⟩ := forall₂_split interleaved
  rw [List.flatten_append, FileTree.run_append, fails before here]
  rfl

/-- Phases that may be left out. -/
theorem optional (condition : Bool) (ends : Ends nprocs phases tree (some tree)) :
    Ends nprocs (if condition then phases else []) tree (some tree) := by
  cases condition with
  | false => exact nil nprocs tree
  | true => exact ends

end Ends

/-! ### One kind of call -/

variable {entries : ℕ → List (Entry Name)}

/-- A phase in which all make the same call ends as the entries say, in any order that keeps the
order of each process. -/
theorem ends_calls {call : Call}
    (ends : ∀ all, Interleaved nprocs entries all → tree.run (all.map (call, ·)) = result) :
    Ends nprocs [fun rank => (entries rank).map (call, ·)] tree result := by
  refine .single fun calls interleaved => ?_
  obtain ⟨all, rfl, together⟩ := interleaved.of_map Prod.snd fun _ => rfl
  exact ends all together

end HandsOn.Posix
