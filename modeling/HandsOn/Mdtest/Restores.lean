import HandsOn.Mdtest.Items

/-!
# What an iteration leaves

An iteration that creates and removes leaves everything as it was, in every interleaving of the
processes' calls, or it fails in every one of them.
-/

namespace HandsOn.Mdtest

open Posix Semantics

variable {options : Options} {ntasks j : ℕ} {random : ℕ → Option (ℕ → ℕ)} {dirs : Bool}
  {tree tree' tree'' : FileTree Name}

/-! ### The items and the trees -/

/-- The path to an item from the test directory. -/
theorem itemAt_path (rank strides number : ℕ) :
    (itemAt options ntasks j dirs rank strides number).path = (testdir j).path ++
      ([treeDir options (neighbor options ntasks rank (strides + 1)) 0] ++
        parentPath (treeDir options rank) options.branchFactor (number / options.perDir) ++
        [itemOf options ntasks dirs rank strides number]) := by
  simp only [Entry.path, itemAt, itemEntry, topdir, List.append_assoc]

/-- The directories are there. -/
theorem itemAt_dir_mem (allowed : options.Allowed) (tasks : 0 < ntasks)
    (ahead : Ahead options ntasks) (tame : Tame options ntasks)
    (planted : Planted options ntasks j tree tree') {rank number : ℕ}
    (task : rank < ntasks) (inside : number ∈ options.created) :
    (itemAt options ntasks j dirs rank 0 number).dir ∈ tree'.dirs := by
  have below := (div_lt allowed inside).2
  have at' : (itemAt options ntasks j dirs rank 0 number).dir =
      (treeEntry options j (shifted options ntasks rank 1) (number / options.perDir)).path := by
    rw [treeEntry_path allowed below, treePath, parentPath_tame allowed ahead tame inside task,
      ← neighbor_eq ahead task (by decide)]
    rfl
  rw [at', planted.1]
  apply Finset.mem_union_right
  exact FileTree.mem_paths.mpr ((mem_treesEntries allowed tasks).mpr
    ⟨_, shifted_lt tasks rank 1, _, below, rfl⟩)

/-- The items are not there yet. -/
theorem itemAt_new (allowed : options.Allowed) (tasks : 0 < ntasks) (prepared : Prepared j tree)
    (planted : Planted options ntasks j tree tree') (rank number : ℕ) :
    (itemAt options ntasks j dirs rank 0 number).path ∉ tree'.dirs ∪ tree'.files := by
  rw [planted.1, planted.2, Finset.union_right_comm]
  intro there
  rcases Finset.mem_union.mp there with before | tree'
  · rw [itemAt_path] at before
    exact prepared.2 _ (by simp) before
  · obtain ⟨_, _, d, _, same⟩ := (mem_treesEntries allowed tasks).mp (FileTree.mem_paths.mp tree')
    have names := congrArg Entry.name same
    rw [treeEntry_name] at names
    exact treeName_ne_itemName names

/-- The items are there. -/
def Stocked (options : Options) (ntasks j : ℕ) (dirs : Bool) (tree tree' : FileTree Name) : Prop :=
  if dirs then
    tree'.dirs = tree.dirs ∪ FileTree.paths (itemsEntries options ntasks j dirs) ∧
      tree'.files = tree.files
  else
    tree'.dirs = tree.dirs ∧
      tree'.files = tree.files ∪ FileTree.paths (itemsEntries options ntasks j dirs)

theorem Stocked.mem (stocked : Stocked options ntasks j dirs tree tree') {entry : Entry Name}
    (inside : entry ∈ itemsEntries options ntasks j dirs) :
    entry.path ∈ tree'.dirs ∪ tree'.files ∧ (dirs = false → entry.path ∈ tree'.files) := by
  have listed := FileTree.mem_paths.mpr inside
  cases dirs with
  | false =>
      have file : entry.path ∈ tree'.files := stocked.2 ▸ Finset.mem_union_right _ listed
      exact ⟨Finset.mem_union_right _ file, fun _ => file⟩
  | true =>
      exact ⟨Finset.mem_union_left _ (stocked.1 ▸ Finset.mem_union_right _ listed), nofun⟩

theorem Stocked.unique (stocked : Stocked options ntasks j dirs tree tree')
    (stocked' : Stocked options ntasks j dirs tree tree'') : tree' = tree'' := by
  cases dirs <;>
    exact FileTree.ext (stocked.1.trans stocked'.1.symm) (stocked.2.trans stocked'.2.symm)

/-! ### The phases of a test -/

/-- What the phases of a test rely on. -/
structure Works (options : Options) (ntasks j : ℕ) (tree tree' : FileTree Name) : Prop where
  allowed : options.Allowed
  single : options.items = 0 ∨ options.itemsPerDir = 0
  tasks : 0 < ntasks
  ahead : Ahead options ntasks
  tame : Tame options ntasks
  separate : Separate options
  prepared : Prepared j tree
  planted : Planted options ntasks j tree tree'

namespace Works

variable (works : Works options ntasks j tree tree')

include works

theorem item_mem {entry : Entry Name} (inside : entry ∈ itemsEntries options ntasks j dirs) :
    entry.dir ∈ tree'.dirs ∧ entry.path ∉ tree'.dirs ∪ tree'.files := by
  obtain ⟨rank, task, listed⟩ := List.mem_flatMap.mp inside
  obtain ⟨number, created, rfl⟩ := List.mem_map.mp listed
  exact ⟨itemAt_dir_mem works.allowed works.tasks works.ahead works.tame works.planted
      (List.mem_range.mp task) created,
    itemAt_new works.allowed works.tasks works.prepared works.planted rank number⟩

theorem distinct_mem {entry : Entry Name}
    (inside : entry ∈ distinctEntries options ntasks j dirs) :
    entry.dir ∈ tree'.dirs ∧ entry.path ∉ tree'.dirs ∪ tree'.files :=
  works.item_mem ((mem_distinctEntries works.tasks works.separate).mp inside)

/-- The items can be created in any order. -/
theorem run_create (kind : dirs = true → options.sharedFile = false) {all : List (Entry Name)}
    (same : all.Perm (itemsEntries options ntasks j dirs)) :
    ∃ tree'', tree'.run (all.map ((if dirs then Call.mkdir else .create), ·)) = some tree'' ∧
      Stocked options ntasks j dirs tree' tree'' := by
  have there : ∀ entry ∈ all, entry.dir ∈ tree'.dirs ∧ entry.path ∉ tree'.dirs ∪ tree'.files :=
    fun entry inside => works.item_mem (same.mem_iff.mp inside)
  cases dirs with
  | false =>
      obtain ⟨tree'', ran, sameDirs, files⟩ := FileTree.run_create fun entry inside =>
        ⟨(there entry inside).1, fun dir => (there entry inside).2 (Finset.mem_union_left _ dir)⟩
      exact ⟨tree'', ran, sameDirs, files.trans (by rw [FileTree.paths_perm same])⟩
  | true =>
      have once : distinctEntries options ntasks j true = itemsEntries options ntasks j true := by
        simp [distinctEntries, itemsEntries]
      have distinct : all.Nodup :=
        same.nodup_iff.mpr (once ▸ nodup_distinctEntries works.allowed works.ahead kind)
      obtain ⟨tree'', ran, moreDirs, files⟩ := FileTree.run_mkdir distinct
        (fun entry inside => (there entry inside).2)
        (founded_of_there fun entry inside => (there entry inside).1)
      exact ⟨tree'', ran, moreDirs.trans (by rw [FileTree.paths_perm same]), files⟩

theorem ends_create (dirs : Bool) (kind : dirs = true → options.sharedFile = false) :
    ∃ tree'', Stocked options ntasks j dirs tree' tree'' ∧
      Ends ntasks [createPhase options ntasks j dirs] tree' (some tree'') := by
  obtain ⟨tree'', -, stocked⟩ := works.run_create kind (.refl _)
  refine ⟨tree'', stocked, ?_⟩
  rw [createPhase_eq]
  refine ends_calls fun all interleaved => ?_
  obtain ⟨built, ran, stocked'⟩ := works.run_create kind interleaved.perm
  rw [ran, stocked.unique stocked']

/-- All that is asked for is there. -/
theorem ends_stat (random : ℕ → Option (ℕ → ℕ))
    (stocked : Stocked options ntasks j dirs tree' tree'') :
    Ends ntasks [statPhase options ntasks random j dirs] tree'' (some tree'') := by
  rw [statPhase_eq]
  refine ends_calls fun all interleaved => ?_
  have same := interleaved.perm.trans (phase_perm works.allowed works.tasks works.ahead works.tame
    (fun rank => visited_perm works.allowed works.single (random rank)) (by decide))
  exact FileTree.run_stat fun entry inside => (stocked.mem (same.mem_iff.mp inside)).1

theorem ends_read (random : ℕ → Option (ℕ → ℕ))
    (stocked : Stocked options ntasks j false tree' tree'') :
    Ends ntasks [readPhase options ntasks random j] tree'' (some tree'') := by
  rw [readPhase_eq]
  refine ends_calls fun all interleaved => ?_
  have same := interleaved.perm.trans (phase_perm works.allowed works.tasks works.ahead works.tame
    (fun rank => visited_perm works.allowed works.single (random rank)) (by decide))
  exact FileTree.run_read fun entry inside => (stocked.mem (same.mem_iff.mp inside)).2 rfl

/-- What was created is removed. -/
theorem ends_remove (kind : dirs = true → options.sharedFile = false)
    (stocked : Stocked options ntasks j dirs tree' tree'') :
    Ends ntasks [removePhase options ntasks j dirs] tree'' (some tree') := by
  rw [removePhase_eq]
  refine ends_calls fun all interleaved => ?_
  have same : all.Perm (distinctEntries options ntasks j dirs) :=
    interleaved.perm.trans
      (removed_perm works.allowed works.tasks works.ahead works.tame works.separate)
  have distinct := same.nodup_iff.mpr (nodup_distinctEntries works.allowed works.ahead kind)
  have there : ∀ entry ∈ all, entry.dir ∈ tree'.dirs ∧ entry.path ∉ tree'.dirs ∪ tree'.files :=
    fun entry inside => works.distinct_mem (same.mem_iff.mp inside)
  have paths : FileTree.paths all = FileTree.paths (itemsEntries options ntasks j dirs) :=
    (FileTree.paths_perm same).trans (paths_distinctEntries works.tasks works.separate)
  cases dirs with
  | false =>
      refine FileTree.run_unlink distinct (fun entry inside => ⟨(there entry inside).1, fun dir =>
        (there entry inside).2 (Finset.mem_union_left _ dir)⟩) (fun entry inside file =>
        (there entry inside).2 (Finset.mem_union_right _ file)) stocked.1 ?_
      rw [paths]
      exact stocked.2
  | true =>
      refine FileTree.run_rmdir distinct (fun entry inside => (there entry inside).2)
        (founded_of_there fun entry inside => (there entry (List.mem_reverse.mp inside)).1) ?_
        stocked.2
      rw [paths]
      exact stocked.1

/-! ### The tests -/

theorem ends_directoryTest (random : ℕ → Option (ℕ → ℕ)) (creates : options.createOnly = true)
    (removes : options.removeOnly = true) (own : options.sharedFile = false) :
    Ends ntasks (directoryTest options ntasks random j) tree' (some tree') := by
  obtain ⟨tree'', stocked, created⟩ := works.ends_create true fun _ => own
  rw [directoryTest, if_pos creates, if_pos removes]
  refine .append (.append created (.optional _ (works.ends_stat random stocked))) ?_
  exact works.ends_remove (fun _ => own) stocked

theorem ends_fileTest (random : ℕ → Option (ℕ → ℕ)) (creates : options.createOnly = true)
    (removes : options.removeOnly = true) :
    Ends ntasks (fileTest options ntasks random j) tree' (some tree') := by
  obtain ⟨tree'', stocked, created⟩ := works.ends_create false nofun
  rw [fileTest, if_pos creates, if_pos removes]
  have asked := Ends.optional options.statOnly (works.ends_stat random stocked)
  have read := Ends.optional options.readOnly (works.ends_read random stocked)
  exact .append (.append (.append created asked) read) (works.ends_remove nofun stocked)

end Works

/-! ### Options that are accepted -/

/-- Something is tested, but no directories if files are shared. -/
theorem setDefaults_tests (given : Options) :
    if (setDefaults given).sharedFile then (setDefaults given).dirsOnly = false
    else (setDefaults given).dirsOnly = true ∨ (setDefaults given).filesOnly = true := by
  cases shared : given.sharedFile <;> cases files : given.filesOnly <;>
    cases directories : given.dirsOnly <;> simp [setDefaults, apply_ite, shared, files, directories]

theorem validTests_ok {given : Options} (valid : validTests given = .ok options) :
    options.Allowed ∧ Separate options ∧ options = setDefaults given := by
  simp only [validTests, refuse_bind_ok, pure, Except.pure, Except.ok.injEq] at valid
  obtain ⟨-, -, apart, branches, -, -, rfl⟩ := valid
  refine ⟨?_, fun shared => ?_, rfl⟩
  · rw [Options.Allowed]
    omega
  · by_contra unique
    exact apart ⟨Bool.eq_true_of_not_eq_false unique, shared⟩

/-! ### Items that are looked for elsewhere -/

/-- The directory below the top of a neighbor that carries the name of another process. -/
theorem stray_dir (dirs : Bool) (allowed : options.Allowed) (tasks : 0 < ntasks)
    (ahead : Ahead options ntasks) (stray : ¬ Tame options ntasks) (prepared : Prepared j tree)
    (planted : Planted options ntasks j tree tree') :
    ∃ entry ∈ itemsEntries options ntasks j dirs, entry.dir ∉ tree'.dirs ∧
      ∃ upper number, entry.dir = (⟨upper, treeDir options 0 number⟩ : Entry Name).path := by
  simp only [Tame, Classical.not_imp, not_or] at stray
  obtain ⟨unique, deep, some', whole⟩ := stray
  have branches : 0 < options.branchFactor := allowed.resolve_right deep
  -- The first directory of the last level has items.
  obtain ⟨d, last⟩ : ∃ d, d = first options.branchFactor options.depth 0 := ⟨_, rfl⟩
  have below : 0 < d := by
    rw [last, ← Nat.succ_pred_eq_of_ne_zero deep, Nat.succ_eq_add_one, first_succ]
    exact Nat.succ_pos _
  have inside : options.perDir * d ∈ options.created := by
    refine (mem_createdNumbers allowed).mpr ⟨Nat.mul_le_mul_left _ ?_, ?_⟩
    · rw [firstWithItems, last]
      split
      · exact Nat.le_refl _
      · exact Nat.zero_le _
    · refine Nat.mul_lt_mul_of_pos_left ?_ (Nat.pos_of_ne_zero some')
      rw [last, first_zero_succ]
      exact Nat.lt_add_of_pos_right (Nat.pow_pos branches)
  have at' : (itemAt options ntasks j dirs 0 0 (options.perDir * d)).dir =
      (testdir j).path ++ ([treeDir options (neighbor options ntasks 0 1) 0] ++
        parentPath (treeDir options (0 : ℕ)) options.branchFactor d) := by
    simp only [itemAt, itemEntry, topdir, List.append_assoc,
      Nat.mul_div_cancel_left d (Nat.pos_of_ne_zero some'), Nat.zero_add]
  refine ⟨itemAt options ntasks j dirs 0 0 (options.perDir * d), ?_, ?_, ?_⟩
  · exact List.mem_flatMap.mpr ⟨0, List.mem_range.mpr tasks, List.mem_map.mpr ⟨_, inside, rfl⟩⟩
  · rw [at', planted.1, Finset.mem_union, not_or]
    refine ⟨fun before => prepared.2 _ (by simp) (Finset.mem_union_left _ before), fun made => ?_⟩
    obtain ⟨entry, listed, same⟩ := List.mem_map.mp (List.mem_toFinset.mp made)
    obtain ⟨rank, task, d', inside', rfl⟩ := (mem_treesEntries allowed tasks).mp listed
    rw [treeEntry_path allowed inside', treePath, List.append_assoc, List.append_cancel_left_eq,
      List.singleton_append, List.singleton_append] at same
    obtain ⟨tops, rest⟩ := List.cons.inj same
    have owner : (rank : Int) = neighbor options ntasks 0 1 := (treeName_inj tops).1 unique
    rw [parentPath_pos branches below] at rest
    have other : rank = 0 := by
      rcases Nat.eq_zero_or_pos d' with rfl | below'
      · rw [parentPath_zero] at rest
        exact absurd rest.symm (by simp)
      · rw [parentPath_pos branches below'] at rest
        exact Int.ofNat_inj.mp
          ((treeName_inj (List.singleton_injective (List.append_inj' rest rfl).2)).1 unique)
    rw [other, neighbor_eq ahead tasks (by decide), shifted, Nat.zero_add, Nat.one_mul] at owner
    have remainder := Int.ofNat_inj.mp owner
    have divides := Int.natCast_dvd_natCast.mpr (Nat.dvd_of_mod_eq_zero remainder.symm)
    rw [Int.toNat_of_nonneg (Int32.le_iff_toInt_le.mp ahead.nonneg)] at divides
    exact whole divides
  · rw [at', parentPath_pos branches below, ← List.append_assoc, ← List.append_assoc]
    exact ⟨_, d, rfl⟩

/-- The creation of items fails then. -/
theorem ends_create_none (dirs : Bool) (allowed : options.Allowed) (tasks : 0 < ntasks)
    (ahead : Ahead options ntasks) (stray : ¬ Tame options ntasks) (prepared : Prepared j tree)
    (planted : Planted options ntasks j tree tree') :
    Ends ntasks [createPhase options ntasks j dirs] tree' none := by
  rw [createPhase_eq]
  refine ends_calls fun all interleaved => ?_
  have same : all.Perm (itemsEntries options ntasks j dirs) := interleaved.perm
  obtain ⟨entry, listed, absent, upper, number, at'⟩ :=
    stray_dir dirs allowed tasks ahead stray prepared planted
  cases dirs with
  | false => exact FileTree.run_create_none (same.mem_iff.mpr listed) absent
  | true =>
      refine FileTree.run_mkdir_none (same.mem_iff.mpr listed) ?_
      rw [Finset.mem_union, not_or]
      refine ⟨absent, fun made => ?_⟩
      rw [at', FileTree.mem_paths, same.mem_iff] at made
      obtain ⟨rank, _, item⟩ := List.mem_flatMap.mp made
      obtain ⟨number', _, item⟩ := List.mem_map.mp item
      exact treeName_ne_itemName (congrArg Entry.name item).symm

/-! ### The whole iteration -/

theorem prepared_of_mkdir (absent : (testdir j).path ∉ tree.dirs ∪ tree.files)
    (made : tree.mkdir (testdir j) = some tree') : Prepared j tree' := by
  obtain ⟨-, dirs, files⟩ := FileTree.mkdir_eq_some.mp made
  refine ⟨dirs ▸ Finset.mem_insert_self _ _, fun rest some' there => ?_⟩
  rw [dirs, files, Finset.insert_union, Finset.mem_insert] at there
  rcases there with itself | before
  · exact some' (List.append_right_eq_self.mp itself)
  · exact absent (FileTree.prefix_mem before)

theorem ends_phases (creates : options.createOnly = true) (removes : options.removeOnly = true)
    (directories : options.sharedFile = true → options.dirsOnly = false)
    (works : Works options ntasks j tree tree')
    (made : Ends ntasks [treePhase options j true] tree (some tree')) :
    Ends ntasks (phases options ntasks random j) tree (some tree) := by
  rw [phases, if_pos creates, if_pos removes]
  have directoryTests : Ends ntasks (if options.dirsOnly && !options.sharedFile then
      directoryTest options ntasks random j else []) tree' (some tree') := by
    by_cases own : options.sharedFile = true
    · rw [directories own]
      exact .nil ntasks tree'
    · exact .optional _ (works.ends_directoryTest random creates removes
        (Bool.eq_false_of_not_eq_true own))
  have fileTests := Ends.optional options.filesOnly (works.ends_fileTest random creates removes)
  exact made.append (directoryTests.append (fileTests.append
    (ends_remove works.allowed works.tasks works.prepared works.planted)))

theorem ends_phases_none (creates : options.createOnly = true)
    (tests : options.dirsOnly = true ∧ options.sharedFile = false ∨ options.filesOnly = true)
    (allowed : options.Allowed) (tasks : 0 < ntasks) (ahead : Ahead options ntasks)
    (stray : ¬ Tame options ntasks) (prepared : Prepared j tree)
    (planted : Planted options ntasks j tree tree')
    (made : Ends ntasks [treePhase options j true] tree (some tree')) :
    Ends ntasks (phases options ntasks random j) tree none := by
  rw [phases, if_pos creates]
  refine made.append ?_
  have failing (dirs : Bool) := ends_create_none dirs allowed tasks ahead stray prepared planted
  by_cases directories : (options.dirsOnly && !options.sharedFile) = true
  · rw [if_pos directories, directoryTest, if_pos creates, List.append_assoc]
    exact (failing true).append_none.append_none
  · have files : options.filesOnly = true := by
      refine tests.resolve_left fun ⟨dirs, own⟩ => directories ?_
      rw [dirs, own]
      rfl
    rw [if_neg directories, List.nil_append, if_pos files, fileTest, if_pos creates,
      List.append_assoc, List.append_assoc]
    exact (failing false).append_none.append_none

/-- Three directories with an item each, for each of two processes. -/
def pairOptions (nstride : Int32) : Options where
  branchFactor := 2
  depth := 1
  items := 3
  itemsPerDir := 0
  leafOnly := false
  uniqueDirPerTask := true
  sharedFile := false
  filesOnly := true
  dirsOnly := true
  createOnly := true
  statOnly := true
  readOnly := true
  removeOnly := true
  barriers := true
  nstride := nstride

/-- Nothing but the root. -/
def rootTree : FileTree Name where
  dirs := {[]}
  files := ∅
  root := Finset.mem_singleton_self _
  apart := Finset.disjoint_empty_right _
  parents path name there := by
    rw [Finset.union_empty, Finset.mem_singleton] at there
    exact absurd there (by simp)

/-- The second process makes its calls after the first in each phase. -/
def pairOrders (nstride : Int32) : List Calls :=
  (phases (pairOptions nstride) 2 (fun _ => none) 0).map (List.range 2).flatMap

theorem pairOrders_interleaved (nstride : Int32) : List.Forall₂ (Interleaved 2)
    (phases (pairOptions nstride) 2 (fun _ => none) 0) (pairOrders nstride) := by
  rw [pairOrders, List.forall₂_map_right_iff, List.forall₂_same]
  exact fun phase _ => .sequential 2 phase

theorem pairOptions_valid (nstride : Int32) :
    validTests (pairOptions nstride) = .ok (pairOptions nstride) := rfl

end HandsOn.Mdtest
