import Mathlib.Data.List.Nodup
import Mathlib.Data.List.Perm.Basic
import Mathlib.Data.Nat.Notation

/-!
# Interleavings

What several processes do at the same time, as one list: it has the actions of all of them, and
those of each in its order.
-/

namespace HandsOn.Semantics

universe u v

variable {Action : Type u} {Image : Type v}

/-- The actions of `nprocs` processes in some order that keeps the order of each. -/
structure Interleaved (nprocs : ℕ) (own : ℕ → List Action) (all : List Action) : Prop where
  perm : all.Perm ((List.range nprocs).flatMap own)
  order : ∀ rank < nprocs, (own rank).Sublist all

namespace Interleaved

variable {nprocs : ℕ} {own : ℕ → List Action} {all : List Action}

theorem mem_iff (interleaved : Interleaved nprocs own all) {action : Action} :
    action ∈ all ↔ ∃ rank < nprocs, action ∈ own rank := by
  rw [interleaved.perm.mem_iff, List.mem_flatMap]
  simp only [List.mem_range]

/-- One process after the other. -/
theorem sequential (nprocs : ℕ) (own : ℕ → List Action) :
    Interleaved nprocs own ((List.range nprocs).flatMap own) where
  perm := .refl _
  order rank task := by
    obtain ⟨before, after, here⟩ := List.append_of_mem (List.mem_range.mpr task)
    rw [here, List.flatMap_append, List.flatMap_cons]
    exact (List.sublist_append_left _ _).trans (List.sublist_append_right _ _)

theorem map (interleaved : Interleaved nprocs own all) (image : Action → Image) :
    Interleaved nprocs (fun rank => (own rank).map image) (all.map image) where
  perm := by
    rw [← List.map_flatMap]
    exact interleaved.perm.map image
  order rank task := (interleaved.order rank task).map image

/-- Actions which all are images are the images of an interleaving. -/
theorem of_map {own : ℕ → List Image} {all : List Action} {image : Image → Action}
    (back : Action → Image) (inverse : Function.LeftInverse back image)
    (interleaved : Interleaved nprocs (fun rank => (own rank).map image) all) :
    ∃ images : List Image, all = images.map image ∧ Interleaved nprocs own images := by
  refine ⟨all.map back, ?_, ?_⟩
  · rw [List.map_map, List.map_congr_left (g := id), List.map_id]
    intro action inside
    obtain ⟨rank, _, listed⟩ := interleaved.mem_iff.mp inside
    obtain ⟨origin, _, rfl⟩ := List.mem_map.mp listed
    exact congrArg image (inverse origin)
  · have mapped := interleaved.map back
    simpa only [List.map_map, inverse.comp_eq_id, List.map_id] using mapped

/-- Backwards, each process does its actions backwards. -/
theorem reverse (interleaved : Interleaved nprocs own all) :
    Interleaved nprocs (fun rank => (own rank).reverse) all.reverse where
  perm := by
    refine all.reverse_perm.trans (interleaved.perm.trans ?_)
    exact List.Perm.flatMap_left _ fun rank _ => (own rank).reverse_perm.symm
  order rank task := (interleaved.order rank task).reverse

/-- Actions that come before another of the same process come before it among all. -/
theorem before (interleaved : Interleaved nprocs own all) (distinct : all.Nodup) {rank : ℕ}
    (task : rank < nprocs) {earlier later earlier' later' : List Action} {action other : Action}
    (here : all = earlier ++ action :: later) (there : own rank = earlier' ++ action :: later')
    (inside : other ∈ earlier') : other ∈ earlier := by
  have sublist := interleaved.order rank task
  rw [here, there] at sublist
  obtain ⟨first, second, same, begins, ends⟩ := List.append_sublist_iff.mp sublist
  have acts : action ∈ second := ends.subset List.mem_cons_self
  rcases List.append_eq_append_iff.mp same with ⟨rest, longer, rest_eq⟩ | ⟨rest, shorter, _⟩
  · cases rest with
    | nil =>
        rw [longer, List.append_nil] at begins
        exact begins.subset inside
    | cons first' rest =>
        -- The action would be among all twice.
        obtain ⟨-, rfl⟩ := List.cons.inj rest_eq
        rw [here, List.nodup_append] at distinct
        exact absurd (List.mem_append_right rest acts) (List.nodup_cons.mp distinct.2.1).1
  · exact shorter ▸ List.mem_append_left _ (begins.subset inside)

end Interleaved

end HandsOn.Semantics
