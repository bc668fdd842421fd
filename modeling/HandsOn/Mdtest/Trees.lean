import HandsOn.Mdtest.Iteration

/-!
# The trees of an iteration

The directories of all trees can be made in any interleaving, and removed.
-/

namespace HandsOn.Mdtest

open Posix Semantics

section

variable (options : Options) (j : ℕ)

/-- The directories of the tree of a process, with the children in some order. -/
def treeEntries (order : List ℕ) (rank : ℕ) : List (Entry Name) :=
  let root : Entry Name := ⟨(testdir j).path, treeDir options rank 0⟩
  root :: (preorder options.branchFactor order false options.depth 1).map
    (dirEntry (treeDir options rank) options.branchFactor root.path)

/-- The directories that a process makes. -/
def ownTree (order : List ℕ) (rank : ℕ) : List (Entry Name) :=
  if options.uniqueDirPerTask || rank = 0 then treeEntries options j order rank else []

/-- The path to a directory of the tree of a process. -/
def treePath (rank d : ℕ) : List Name :=
  (testdir j).path ++ [treeDir options rank 0] ++
    parentPath (treeDir options rank) options.branchFactor d

variable {options j}

theorem treePhase_create (rank : ℕ) :
    treePhase options j true rank =
      (ownTree options j (List.range options.branchFactor) rank).map (Call.mkdir, ·) := by
  rw [treePhase, ownTree]
  split
  · have below := branchTree_create (treeDir options rank) options.branchFactor
      ((testdir j).path ++ [treeDir options rank 0]) options.depth 0
    rw [parentPath_zero, List.append_nil, Nat.mul_zero, Nat.zero_add] at below
    simp only [createRemoveDirectoryTree, if_true, List.append_nil, treeEntries, List.map_cons,
      List.map_map, List.singleton_append]
    exact congrArg _ below
  · rfl

theorem treePhase_remove (rank : ℕ) :
    treePhase options j false rank =
      (ownTree options j (List.range options.branchFactor).reverse rank).reverse.map
        (Call.rmdir, ·) := by
  rw [treePhase, ownTree]
  split
  · have below := branchTree_remove (treeDir options rank) options.branchFactor
      ((testdir j).path ++ [treeDir options rank 0]) options.depth 0
    rw [parentPath_zero, List.append_nil, Nat.mul_zero, Nat.zero_add] at below
    simp only [createRemoveDirectoryTree, Bool.false_eq_true, if_false, List.nil_append,
      treeEntries, List.reverse_cons, List.map_append, List.map_singleton]
    exact congrArg (· ++ _) below
  · rfl

/-! ### The order in a tree -/

/-- A subtree can be made below a directory that is there. -/
theorem founded_preorder {base : ℕ → Name} {b : ℕ} {root : List Name} {order : List ℕ}
    (all : order.Perm (List.range b)) {levels p : ℕ} {dirs : Finset (List Name)}
    (there : root ++ parentPath base b p ∈ dirs) :
    Founded dirs ((preorder b order false levels (b * p + 1)).map (dirEntry base b root)) := by
  induction levels generalizing p dirs with
  | zero => exact founded_of_there fun _ inside => absurd inside List.not_mem_nil
  | succ levels ih =>
      rw [preorder, List.map_flatMap]
      refine .flatMap fun i inside => ?_
      have inside := List.mem_range.mp (all.mem_iff.mp inside)
      rw [Bool.false_and, if_neg Bool.false_ne_true, List.singleton_append, List.map_cons]
      refine .cons ?_ (ih ?_)
      · rw [dirEntry_child root inside]
        exact there
      · rw [dirEntry_path (by omega) root (by omega)]
        exact Finset.mem_insert_self _ _

theorem founded_treeEntries {order : List ℕ} (all : order.Perm (List.range options.branchFactor))
    {dirs : Finset (List Name)} (there : (testdir j).path ∈ dirs) (rank : ℕ) :
    Founded dirs (treeEntries options j order rank) := by
  refine .cons there ?_
  refine founded_preorder (p := 0) all ?_
  rw [parentPath_zero, List.append_nil]
  exact Finset.mem_insert_self _ _

theorem founded_ownTree {order : List ℕ} (all : order.Perm (List.range options.branchFactor))
    {dirs : Finset (List Name)} (there : (testdir j).path ∈ dirs) (rank : ℕ) :
    Founded dirs (ownTree options j order rank) := by
  rw [ownTree]
  split
  · exact founded_treeEntries all there rank
  · exact founded_of_there fun _ inside => absurd inside List.not_mem_nil

/-! ### The directories that are made -/

theorem preorder_perm {b : ℕ} {order : List ℕ} (all : order.Perm (List.range b)) {leafOnly : Bool}
    {levels dirNum : ℕ} :
    (preorder b order leafOnly levels dirNum).Perm
      (preorder b (List.range b) leafOnly levels dirNum) := by
  induction levels generalizing dirNum with
  | zero => exact .refl _
  | succ levels ih =>
      refine (all.flatMap_right _).trans (List.Perm.flatMap_left _ fun i _ => ?_)
      exact List.Perm.append_left _ ih

theorem ownTree_perm {order : List ℕ} (all : order.Perm (List.range options.branchFactor))
    (rank : ℕ) :
    (ownTree options j order rank).Perm
      (ownTree options j (List.range options.branchFactor) rank) := by
  rw [ownTree, ownTree]
  split
  · exact ((preorder_perm all).map _).cons _
  · exact .refl _

/-- A directory of the tree of a process by its number. -/
def treeEntry (options : Options) (j rank d : ℕ) : Entry Name :=
  let root : Entry Name := ⟨(testdir j).path, treeDir options rank 0⟩
  if d = 0 then root else dirEntry (treeDir options rank) options.branchFactor root.path d

theorem treeEntry_name (rank d : ℕ) :
    (treeEntry options j rank d).name = treeDir options rank d := by
  rw [treeEntry]
  split
  case isTrue root => rw [root]
  case isFalse => rfl

theorem treeEntry_path (allowed : options.Allowed) {rank d : ℕ}
    (inside : d < first options.branchFactor (options.depth + 1) 0) :
    (treeEntry options j rank d).path = treePath options j rank d := by
  rw [treeEntry, treePath]
  split
  case isTrue root =>
    rw [root, parentPath_zero, List.append_nil]
    rfl
  case isFalse below =>
    have branches : 0 < options.branchFactor := by
      refine allowed.resolve_right fun flat => below ?_
      rw [flat, first_zero_succ] at inside
      exact Nat.lt_one_iff.mp inside
    exact dirEntry_path branches _ (Nat.pos_of_ne_zero below)

theorem mem_treeEntries (allowed : options.Allowed) {rank : ℕ} {entry : Entry Name} :
    entry ∈ treeEntries options j (List.range options.branchFactor) rank ↔
      ∃ d < first options.branchFactor (options.depth + 1) 0,
        treeEntry options j rank d = entry := by
  have known {d : ℕ} := mem_dirs false allowed (d := d)
  simp only [Bool.not_false, Bool.true_or, if_true, List.singleton_append, List.mem_cons,
    firstWithItems, Bool.false_eq_true, if_false, Nat.zero_le, true_and] at known
  have below : ∀ d ∈ preorder options.branchFactor (List.range options.branchFactor) false
      options.depth 1, d ≠ 0 := by
    intro d inside
    rw [← Nat.zero_add 1, ← Nat.mul_zero options.branchFactor] at inside
    exact Nat.ne_of_gt (pos_of_mem_preorder (.refl _) inside)
  rw [treeEntries, List.mem_cons, List.mem_map]
  constructor
  · rintro (rfl | ⟨d, inside, rfl⟩)
    · exact ⟨0, known.mp (.inl rfl), rfl⟩
    · exact ⟨d, known.mp (.inr inside), if_neg (below d inside)⟩
  · rintro ⟨d, inside, rfl⟩
    rcases known.mpr inside with rfl | inside
    · exact .inl rfl
    · exact .inr ⟨d, inside, (if_neg (below d inside)).symm⟩

theorem nodup_treeEntries (allowed : options.Allowed) (rank : ℕ) :
    (treeEntries options j (List.range options.branchFactor) rank).Nodup := by
  have distinct := nodup_dirs false allowed
  simp only [Bool.not_false, Bool.true_or, if_true, List.singleton_append] at distinct
  apply List.Nodup.of_map Entry.name
  have named : (treeEntries options j (List.range options.branchFactor) rank).map Entry.name =
      (0 :: preorder options.branchFactor (List.range options.branchFactor) false options.depth
        1).map (treeDir options rank) := by
    rw [treeEntries, List.map_cons, List.map_map]
    rfl
  rw [named]
  exact distinct.map fun d d' same => (treeName_inj same).2

/-- The directories of all trees. -/
def treesEntries (options : Options) (ntasks j : ℕ) : List (Entry Name) :=
  (List.range ntasks).flatMap (ownTree options j (List.range options.branchFactor))

variable {ntasks : ℕ}

/-- Without a directory for each process the trees are one. -/
theorem treeDir_shared (shared : options.uniqueDirPerTask = false) (rank rank' : Int) :
    treeDir options rank = treeDir options rank' := by
  funext number
  rw [treeDir, treeDir, shared]
  rfl

theorem mem_treesEntries (allowed : options.Allowed) (tasks : 0 < ntasks) {entry : Entry Name} :
    entry ∈ treesEntries options ntasks j ↔
      ∃ rank < ntasks, ∃ d < first options.branchFactor (options.depth + 1) 0,
        treeEntry options j rank d = entry := by
  simp only [treesEntries, List.mem_flatMap, List.mem_range, ownTree]
  constructor
  · rintro ⟨rank, task, inside⟩
    split at inside
    · exact ⟨rank, task, (mem_treeEntries allowed).mp inside⟩
    · cases inside
  · rintro ⟨rank, task, d, inside, rfl⟩
    by_cases unique : options.uniqueDirPerTask = true
    · refine ⟨rank, task, ?_⟩
      rw [if_pos (by rw [unique, Bool.true_or])]
      exact (mem_treeEntries allowed).mpr ⟨d, inside, rfl⟩
    · -- The first process makes the tree of all.
      refine ⟨0, tasks, ?_⟩
      rw [if_pos (by simp)]
      refine (mem_treeEntries allowed).mpr ⟨d, inside, ?_⟩
      rw [treeEntry, treeEntry,
        treeDir_shared (Bool.eq_false_of_not_eq_true unique) ((0 : ℕ) : Int) rank]

theorem nodup_treesEntries (allowed : options.Allowed) :
    (treesEntries options ntasks j).Nodup := by
  refine List.nodup_flatMap.mpr ⟨fun rank _ => ?_, List.nodup_range.imp ?_⟩
  · rw [ownTree]
    split
    · exact nodup_treeEntries allowed rank
    · exact List.nodup_nil
  · intro rank rank' different entry here there
    rw [ownTree] at here there
    split at here
    case isFalse => cases here
    case isTrue makes =>
      split at there
      case isFalse => cases there
      case isTrue makes' =>
        obtain ⟨d, -, rfl⟩ := (mem_treeEntries allowed).mp here
        obtain ⟨d', -, same⟩ := (mem_treeEntries allowed).mp there
        have names := congrArg Entry.name same
        rw [treeEntry_name, treeEntry_name] at names
        by_cases unique : options.uniqueDirPerTask = true
        · exact different (Int.ofNat_inj.mp ((treeName_inj names).1 unique).symm)
        · rw [Bool.eq_false_of_not_eq_true unique, Bool.false_or] at makes makes'
          exact different ((of_decide_eq_true makes).trans (of_decide_eq_true makes').symm)

/-! ### Making and removing the trees -/

section

variable {tree tree' : FileTree Name}

/-- The directory of the iteration is there and has no entries. -/
def Prepared (j : ℕ) (tree : FileTree Name) : Prop :=
  (testdir j).path ∈ tree.dirs ∧
    ∀ rest ≠ [], (testdir j).path ++ rest ∉ tree.dirs ∪ tree.files

/-- The trees are there, too. -/
def Planted (options : Options) (ntasks j : ℕ) (tree tree' : FileTree Name) : Prop :=
  tree'.dirs = tree.dirs ∪ FileTree.paths (treesEntries options ntasks j) ∧ tree'.files = tree.files

theorem treesEntries_new (allowed : options.Allowed) (tasks : 0 < ntasks)
    (prepared : Prepared j tree) {entry : Entry Name}
    (inside : entry ∈ treesEntries options ntasks j) : entry.path ∉ tree.dirs ∪ tree.files := by
  obtain ⟨rank, -, d, below, rfl⟩ := (mem_treesEntries allowed tasks).mp inside
  rw [treeEntry_path allowed below, treePath, List.append_assoc]
  exact prepared.2 _ (by simp)

/-- The trees can be made in any interleaving. -/
theorem ends_create (allowed : options.Allowed) (tasks : 0 < ntasks)
    (prepared : Prepared j tree) : ∃ tree', Planted options ntasks j tree tree' ∧
      Ends ntasks [treePhase options j true] tree (some tree') := by
  have founded : ∀ rank < ntasks, Founded tree.dirs
      (ownTree options j (List.range options.branchFactor) rank) :=
    fun rank _ => founded_ownTree (.refl _) prepared.1 rank
  obtain ⟨tree', -, planted⟩ := FileTree.run_mkdir (nodup_treesEntries allowed)
    (fun _ => treesEntries_new allowed tasks prepared)
    (.flatMap fun rank inside => founded rank (List.mem_range.mp inside))
  refine ⟨tree', planted, ?_⟩
  rw [funext treePhase_create]
  refine ends_calls fun all interleaved => ?_
  have same : all.Perm (treesEntries options ntasks j) := interleaved.perm
  have distinct := same.nodup_iff.mpr (nodup_treesEntries allowed)
  obtain ⟨made, ran, dirs, files⟩ := FileTree.run_mkdir distinct
    (fun _ inside => treesEntries_new allowed tasks prepared (same.mem_iff.mp inside))
    (.interleaved founded distinct interleaved)
  rw [ran]
  apply congrArg some
  apply FileTree.ext
  · rw [dirs, planted.1, FileTree.paths_perm same]
  · rw [files, planted.2]

/-- They can be removed in any interleaving. -/
theorem ends_remove (allowed : options.Allowed) (tasks : 0 < ntasks)
    (prepared : Prepared j tree) (planted : Planted options ntasks j tree tree') :
    Ends ntasks [treePhase options j false] tree' (some tree) := by
  rw [funext treePhase_remove]
  refine ends_calls fun all interleaved => ?_
  have backwards := interleaved.reverse
  simp only [List.reverse_reverse] at backwards
  have same : all.Perm (treesEntries options ntasks j) :=
    all.reverse_perm.symm.trans (backwards.perm.trans (List.Perm.flatMap_left _ fun rank _ =>
      ownTree_perm (List.reverse_perm _) rank))
  have distinct := same.nodup_iff.mpr (nodup_treesEntries allowed)
  refine FileTree.run_rmdir distinct
    (fun _ inside => treesEntries_new allowed tasks prepared (same.mem_iff.mp inside)) ?_ ?_
    planted.2
  · exact .interleaved (fun rank _ => founded_ownTree (List.reverse_perm _) prepared.1 rank)
      (List.nodup_reverse.mpr distinct) backwards
  · rw [planted.1, FileTree.paths_perm same]

end

end

end HandsOn.Mdtest
