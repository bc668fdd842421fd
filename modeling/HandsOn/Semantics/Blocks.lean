import Mathlib.Data.List.Nodup
import Mathlib.Data.List.Perm.Subperm
import Mathlib.Data.Nat.ModEq
import Mathlib.Data.Nat.Notation

/-!
# Work in blocks

Nested loops over blocks and the loop over everything in them, and how a list of work is dealt
out: in blocks, by an owner for each item, or in another order.
-/

namespace HandsOn.Semantics

universe u v w

variable {Item : Type u} {Entry : Type v} {Index : Type w}

/-- A loop over blocks with a loop over each is one loop over all entries. -/
theorem flatMap_range_mul (blocks size : ℕ) (entry : ℕ → Entry) :
    ((List.range blocks).flatMap fun i => (List.range size).map fun j => entry (i * size + j)) =
      (List.range (blocks * size)).map entry := by
  induction blocks with
  | zero => simp
  | succ blocks ih =>
      rw [List.range_succ, List.flatMap_append, ih, List.flatMap_singleton, Nat.succ_mul,
        List.range_add, List.map_append, List.map_map]
      rfl

/-- Two nested loops over blocks are one. -/
theorem flatMap_flatMap_range_mul (blocks size : ℕ) (entries : ℕ → List Entry) :
    ((List.range blocks).flatMap fun i =>
        (List.range size).flatMap fun j => entries (i * size + j)) =
      (List.range (blocks * size)).flatMap entries := by
  have one := congrArg (List.flatMap entries) (flatMap_range_mul blocks size id)
  rw [List.map_id, List.flatMap_assoc] at one
  simpa only [List.flatMap_map, id_eq] using one

/-- Two nested loops can be exchanged. -/
theorem flatMap_swap_perm (outer : List Item) (inner : List Index)
    (entries : Item → Index → List Entry) :
    (outer.flatMap fun a => inner.flatMap fun b => entries a b).Perm
      (inner.flatMap fun b => outer.flatMap fun a => entries a b) := by
  induction outer with
  | nil => simp
  | cons first rest ih =>
      simp only [List.flatMap_cons]
      exact (List.Perm.append_left _ ih).trans (List.flatMap_append_perm _ _ _)

/-- What only one rank contributes is there once. -/
theorem flatMap_range_single {nprocs owner : ℕ} (below : owner < nprocs) (entries : List Entry) :
    ((List.range nprocs).flatMap fun rank => if owner = rank then entries else []) = entries := by
  induction nprocs with
  | zero => cases below
  | succ nprocs ih =>
      rw [List.range_succ, List.flatMap_append, List.flatMap_singleton]
      rcases Nat.lt_or_eq_of_le (Nat.le_of_lt_succ below) with earlier | rfl
      · rw [ih earlier, if_neg (Nat.ne_of_lt earlier), List.append_nil]
      · have earlier : ((List.range owner).flatMap fun rank =>
            if owner = rank then entries else []) = [] :=
          List.flatMap_eq_nil_iff.mpr fun rank inside =>
            if_neg (Nat.ne_of_gt (List.mem_range.mp inside))
        rw [earlier, if_pos rfl, List.nil_append]

/-- Items dealt to their owners are each dealt once. -/
theorem flatMap_filter_perm (owner : Item → ℕ) {items : List Item} {nprocs : ℕ}
    (owned : ∀ item ∈ items, owner item < nprocs) :
    ((List.range nprocs).flatMap fun rank => items.filter (owner · = rank)).Perm items := by
  induction items with
  | nil =>
      have nothing : ((List.range nprocs).flatMap fun rank =>
          ([] : List Item).filter (owner · = rank)) = [] :=
        List.flatMap_eq_nil_iff.mpr fun _ _ => rfl
      exact .of_eq nothing
  | cons item items ih =>
      have rest := ih fun other inside => owned other (List.mem_cons_of_mem _ inside)
      have divided := List.flatMap_append_perm (List.range nprocs)
        (fun rank => if owner item = rank then [item] else [])
        fun rank => items.filter (owner · = rank)
      rw [flatMap_range_single (owned item List.mem_cons_self)] at divided
      have cons : (fun rank => (item :: items).filter (owner · = rank)) = fun rank =>
          (if owner item = rank then [item] else []) ++ items.filter (owner · = rank) := by
        funext rank
        by_cases own : owner item = rank <;> simp [own]
      rw [cons]
      exact divided.symm.trans (rest.cons item)

/-- Where no entry is there twice, it is in one block. -/
theorem block_unique {nprocs : ℕ} {entries : ℕ → List Entry}
    (distinct : ((List.range nprocs).flatMap entries).Nodup) {first second : ℕ}
    (below : first < nprocs) (below' : second < nprocs) {entry : Entry}
    (here : entry ∈ entries first) (there : entry ∈ entries second) : first = second := by
  have apart := List.pairwise_iff_getElem.mp (List.nodup_flatMap.mp distinct).2
  have earlier : ∀ {a b : ℕ}, b < nprocs → entry ∈ entries a → entry ∈ entries b → ¬ a < b := by
    intro a b below inA inB ordered
    have disjoint := apart a b (by simp; omega) (by simpa using below) ordered
    simp only [Function.onFun, List.getElem_range] at disjoint
    exact disjoint inA inB
  have := earlier below' here there
  have := earlier below there here
  omega

/-- Ranks that are all shifted by as much are the ranks. -/
theorem range_shift_perm (nprocs shift : ℕ) :
    ((List.range nprocs).map fun rank => (rank + shift) % nprocs).Perm (List.range nprocs) := by
  have distinct : ((List.range nprocs).map fun rank => (rank + shift) % nprocs).Nodup := by
    refine (List.nodup_map_iff_inj_on List.nodup_range).mpr fun a inA b inB same => ?_
    have := Nat.ModEq.add_right_cancel' shift same
    rwa [Nat.ModEq, Nat.mod_eq_of_lt (List.mem_range.mp inA),
      Nat.mod_eq_of_lt (List.mem_range.mp inB)] at this
  refine (List.subperm_of_subset distinct fun rank inside => ?_).perm_of_length_le (by simp)
  obtain ⟨a, inA, rfl⟩ := List.mem_map.mp inside
  exact List.mem_range.mpr (Nat.mod_lt _ (Nat.zero_lt_of_lt (List.mem_range.mp inA)))

/-! ### Reordering by exchanges -/

/-- Exchange some entries, each with one chosen for it. -/
def exchange (choice : ℕ → ℕ) (steps : List ℕ) (array : Array Entry) : Array Entry :=
  steps.foldl (fun array i => array.swapIfInBounds (choice i) i) array

theorem swapIfInBounds_perm (array : Array Entry) (i j : ℕ) :
    (array.swapIfInBounds i j).Perm array := by
  rw [Array.swapIfInBounds_def]
  split
  · split
    · exact Array.swap_perm _ _
    · exact .refl _
  · exact .refl _

/-- Exchanges only change the order. -/
theorem exchange_perm (choice : ℕ → ℕ) (steps : List ℕ) (array : Array Entry) :
    (exchange choice steps array).Perm array := by
  induction steps generalizing array with
  | nil => exact .refl _
  | cons i steps ih => exact (ih _).trans (swapIfInBounds_perm array _ _)

end HandsOn.Semantics
