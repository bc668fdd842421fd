import HandsOn.Mdtest.Names
import HandsOn.Mdtest.Numbering

/-!
# The hierarchy of directories and the items in it

One recursion makes and removes the directories, another one creates and removes the items in
them. `mdtest_stat` and `mdtest_read` take the items by their numbers and find the path to each
by climbing from its directory to the root.
-/

namespace HandsOn.Mdtest

open Posix Semantics

/-- The calls of a process. -/
abbrev Calls := List (Call × Entry Name)

section

variable (base item : ℕ → Name) (b : ℕ)

/-! ### As the program computes it -/

/-- `create_remove_directory_tree` at a depth from 1, with as many levels left. -/
def branchTree (create : Bool) : ℕ → List Name → ℕ → Calls
  | 0, _, _ => []
  | levels + 1, path, dirNum => (List.range b).flatMap fun i =>
      let currDir := dirNum + i
      let dir : Entry Name := ⟨path, base currDir⟩
      (if create then [(Call.mkdir, dir)] else []) ++
        branchTree create levels dir.path (b * currDir + 1) ++
        (if create then [] else [(Call.rmdir, dir)])

/-- `create_remove_directory_tree` -/
def createRemoveDirectoryTree (create : Bool) (depth : ℕ) (path : List Name) : Calls :=
  let dir : Entry Name := ⟨path, base 0⟩
  (if create then [(Call.mkdir, dir)] else []) ++ branchTree base b create depth dir.path 1 ++
    (if create then [] else [(Call.rmdir, dir)])

/-- `create_remove_items_helper` -/
def createRemoveItemsHelper (call : Call) (itemsPerDir : ℕ) (path : List Name) (itemNum : ℕ) :
    Calls :=
  (List.range itemsPerDir).map fun i => (call, ⟨path, item (itemNum + i)⟩)

/-- `create_remove_items` at a depth from 1, with as many levels left. -/
def branchItems (call : Call) (leafOnly : Bool) (itemsPerDir : ℕ) : ℕ → List Name → ℕ → Calls
  | 0, _, _ => []
  | levels + 1, path, dirNum => (List.range b).flatMap fun i =>
      let currDir := dirNum + i
      let tempPath := path ++ [base currDir]
      (if !leafOnly || (leafOnly && levels = 0) then
        createRemoveItemsHelper item call itemsPerDir tempPath (currDir * itemsPerDir) else []) ++
      branchItems call leafOnly itemsPerDir levels tempPath (currDir * b + 1)

/-- `create_remove_items` -/
def createRemoveItems (call : Call) (leafOnly : Bool) (itemsPerDir depth : ℕ) (path : List Name) :
    Calls :=
  (if !leafOnly || (depth = 0 && leafOnly) then
    createRemoveItemsHelper item call itemsPerDir path 0 else []) ++
  branchItems base item b call leafOnly itemsPerDir depth path 1

/-- The loop of `mdtest_stat` from a directory below the root to the root. -/
def climb (parentDir : ℕ) (path : List Name) : List Name :=
  if b < parentDir then climb ((parentDir - 1) / b) (base ((parentDir - 1) / b) :: path) else path
termination_by parentDir
decreasing_by
  have := Nat.div_le_self (parentDir - 1) b
  omega

/-- The path from the root to a directory. -/
def parentPath (parentDir : ℕ) : List Name :=
  if 0 < parentDir then climb base b parentDir [base parentDir] else []

/-- `num_dirs_in_tree` -/
def numDirsInTree (depth : ℕ) : ℕ :=
  if depth = 0 then 1
  else if b < 1 then 1
  else if b = 1 then depth + 1
  else (b ^ (depth + 1) - 1) / (b - 1)

/-- The number of an item that `mdtest_stat` asks for. -/
def itemNum (leafOnly : Bool) (itemsPerDir depth : ℕ) (i : ℕ) : ℕ :=
  if leafOnly then i + itemsPerDir * (numDirsInTree b depth - b ^ depth) else i

/-- `mdtest_stat` and `mdtest_read`: `pick` is the order of the items. -/
def mdtestStat (call : Call) (leafOnly : Bool) (itemsPerDir depth items : ℕ) (pick : ℕ → ℕ)
    (path : List Name) : Calls :=
  (List.range items).map fun i =>
    let number := itemNum b leafOnly itemsPerDir depth (pick i)
    (call, ⟨path ++ parentPath base b (number / itemsPerDir), item number⟩)

end

/-! ### Paths -/

section

variable {base : ℕ → Name} {b : ℕ}

theorem climb_far {d : ℕ} (far : b < d) (path : List Name) :
    climb base b d path = climb base b ((d - 1) / b) (base ((d - 1) / b) :: path) := by
  rw [climb, if_pos far]

theorem climb_near {d : ℕ} (near : ¬ b < d) (path : List Name) : climb base b d path = path := by
  rw [climb, if_neg near]

theorem climb_append (d : ℕ) (before after : List Name) :
    climb base b d (before ++ after) = climb base b d before ++ after := by
  induction d using Nat.strong_induction_on generalizing before with
  | _ d ih =>
    by_cases far : b < d
    · have := Nat.div_le_self (d - 1) b
      rw [climb_far far, climb_far far]
      exact ih ((d - 1) / b) (by omega) (base ((d - 1) / b) :: before)
    · rw [climb_near far, climb_near far]

@[simp] theorem parentPath_zero : parentPath base b 0 = [] := rfl

/-- A directory is in its parent. -/
theorem parentPath_pos (positive : 0 < b) {d : ℕ} (below : 0 < d) :
    parentPath base b d = parentPath base b ((d - 1) / b) ++ [base d] := by
  rw [parentPath, if_pos below]
  by_cases far : b < d
  · have above : 0 < (d - 1) / b := Nat.div_pos (by omega) positive
    rw [climb_far far, parentPath, if_pos above, ← climb_append]
    rfl
  · have root : (d - 1) / b = 0 := Nat.div_eq_of_lt (by omega)
    rw [climb_near far, root, parentPath_zero, List.nil_append]

/-- The parent of a child. -/
theorem child_parent {p i : ℕ} (inside : i < b) : (b * p + 1 + i - 1) / b = p := by
  have shifted : b * p + 1 + i - 1 = b * p + i := by omega
  rw [shifted, Nat.mul_add_div (by omega), Nat.div_eq_of_lt inside, Nat.add_zero]

theorem parentPath_child {p i : ℕ} (inside : i < b) :
    parentPath base b (b * p + 1 + i) = parentPath base b p ++ [base (b * p + 1 + i)] := by
  rw [parentPath_pos (by omega) (by omega), child_parent inside]

/-! ### The directories -/

/-- A directory below the root. -/
def dirEntry (base : ℕ → Name) (b : ℕ) (root : List Name) (d : ℕ) : Entry Name :=
  ⟨root ++ parentPath base b ((d - 1) / b), base d⟩

theorem dirEntry_path (positive : 0 < b) (root : List Name) {d : ℕ} (below : 0 < d) :
    (dirEntry base b root d).path = root ++ parentPath base b d := by
  rw [Entry.path, dirEntry, parentPath_pos positive below, List.append_assoc]

theorem dirEntry_child (root : List Name) {p i : ℕ} (inside : i < b) :
    dirEntry base b root (b * p + 1 + i) =
      ⟨root ++ parentPath base b p, base (b * p + 1 + i)⟩ := by
  rw [dirEntry, child_parent inside]

variable (base b) in
/-- The directories are made in preorder. -/
theorem branchTree_create (root : List Name) (levels p : ℕ) :
    branchTree base b true levels (root ++ parentPath base b p) (b * p + 1) =
      (preorder b (List.range b) false levels (b * p + 1)).map fun d =>
        (Call.mkdir, dirEntry base b root d) := by
  induction levels generalizing p with
  | zero => rfl
  | succ levels ih =>
      rw [branchTree, preorder, List.map_flatMap]
      refine List.flatMap_congr fun i inside => ?_
      have inside := List.mem_range.mp inside
      have below : (⟨root ++ parentPath base b p, base (b * p + 1 + i)⟩ : Entry Name).path =
          root ++ parentPath base b (b * p + 1 + i) := by
        rw [Entry.path, parentPath_child inside, List.append_assoc]
      simp only [below, ih, if_true, List.append_nil, Bool.false_and, Bool.false_eq_true, if_false,
        List.map_append, List.map_singleton, dirEntry_child root inside]

variable (base b) in
/-- The directories are removed in the opposite of a preorder. -/
theorem branchTree_remove (root : List Name) (levels p : ℕ) :
    branchTree base b false levels (root ++ parentPath base b p) (b * p + 1) =
      ((preorder b (List.range b).reverse false levels (b * p + 1)).map
        (dirEntry base b root)).reverse.map (Call.rmdir, ·) := by
  induction levels generalizing p with
  | zero => rfl
  | succ levels ih =>
      rw [branchTree, preorder, List.map_flatMap, List.reverse_flatMap, List.reverse_reverse,
        List.map_flatMap]
      refine List.flatMap_congr fun i inside => ?_
      have inside := List.mem_range.mp inside
      have below : (⟨root ++ parentPath base b p, base (b * p + 1 + i)⟩ : Entry Name).path =
          root ++ parentPath base b (b * p + 1 + i) := by
        rw [Entry.path, parentPath_child inside, List.append_assoc]
      simp only [below, ih, if_false, List.nil_append, Bool.false_and, Bool.false_eq_true,
        Function.comp_apply, List.map_append, List.map_singleton, List.reverse_append,
        List.reverse_singleton, dirEntry_child root inside]

/-! ### The items -/

variable {item : ℕ → Name} {call : Call} {leafOnly : Bool} {itemsPerDir : ℕ}

/-- An item by its number. -/
def itemEntry (base item : ℕ → Name) (b itemsPerDir : ℕ) (path : List Name) (number : ℕ) :
    Entry Name :=
  ⟨path ++ parentPath base b (number / itemsPerDir), item number⟩

/-- The numbers of the items in a directory. -/
def numbersIn (itemsPerDir d : ℕ) : List ℕ := (List.range itemsPerDir).map (d * itemsPerDir + ·)

/-- The numbers of the items in the order in which they are created. -/
def createdNumbers (b : ℕ) (leafOnly : Bool) (itemsPerDir depth : ℕ) : List ℕ :=
  ((if !leafOnly || (depth = 0 && leafOnly) then [0] else []) ++
    preorder b (List.range b) leafOnly depth 1).flatMap (numbersIn itemsPerDir)

theorem helper_eq (path : List Name) (d : ℕ) :
    createRemoveItemsHelper item call itemsPerDir (path ++ parentPath base b d) (d * itemsPerDir) =
      (numbersIn itemsPerDir d).map fun number =>
        (call, itemEntry base item b itemsPerDir path number) := by
  rw [createRemoveItemsHelper, numbersIn, List.map_map]
  refine List.map_congr_left fun i inside => ?_
  have inside := List.mem_range.mp inside
  have own : (d * itemsPerDir + i) / itemsPerDir = d := by
    rw [Nat.mul_comm, Nat.mul_add_div (by omega), Nat.div_eq_of_lt inside, Nat.add_zero]
  rw [Function.comp_apply, itemEntry, own]

theorem branchItems_eq (path : List Name) (levels p : ℕ) :
    branchItems base item b call leafOnly itemsPerDir levels (path ++ parentPath base b p)
        (b * p + 1) =
      ((preorder b (List.range b) leafOnly levels (b * p + 1)).flatMap
        (numbersIn itemsPerDir)).map fun number =>
          (call, itemEntry base item b itemsPerDir path number) := by
  induction levels generalizing p with
  | zero => rfl
  | succ levels ih =>
      rw [branchItems, preorder, List.flatMap_assoc, List.map_flatMap]
      refine List.flatMap_congr fun i inside => ?_
      have inside := List.mem_range.mp inside
      have kept : (!leafOnly || (leafOnly && decide (levels = 0))) =
          !(leafOnly && decide (levels ≠ 0)) := by
        cases leafOnly <;> simp
      have below : path ++ parentPath base b p ++ [base (b * p + 1 + i)] =
          path ++ parentPath base b (b * p + 1 + i) := by
        rw [parentPath_child inside, List.append_assoc]
      have later : (b * p + 1 + i) * b + 1 = b * (b * p + 1 + i) + 1 := by
        rw [Nat.mul_comm]
      simp only [below, later, ih, kept, List.flatMap_append, List.map_append]
      refine congrArg (· ++ _) ?_
      cases leafOnly && decide (levels ≠ 0) with
      | true => rfl
      | false =>
          rw [Bool.not_false, if_pos rfl, if_neg Bool.false_ne_true, List.flatMap_singleton,
            helper_eq]

/-- The items are created by number. -/
theorem createRemoveItems_eq (path : List Name) (depth : ℕ) :
    createRemoveItems base item b call leafOnly itemsPerDir depth path =
      (createdNumbers b leafOnly itemsPerDir depth).map fun number =>
        (call, itemEntry base item b itemsPerDir path number) := by
  have root : createRemoveItemsHelper item call itemsPerDir
      (path ++ parentPath base b 0) (0 * itemsPerDir) = _ := helper_eq path 0
  have below : branchItems base item b call leafOnly itemsPerDir depth
      (path ++ parentPath base b 0) (b * 0 + 1) = _ := branchItems_eq path depth 0
  rw [parentPath_zero, List.append_nil, Nat.zero_mul] at root
  rw [parentPath_zero, List.append_nil, Nat.mul_zero, Nat.zero_add] at below
  rw [createRemoveItems, createdNumbers, List.flatMap_append, List.map_append, below]
  refine congrArg (· ++ _) ?_
  split
  · rw [List.flatMap_singleton, root]
  · rfl

end

end HandsOn.Mdtest
