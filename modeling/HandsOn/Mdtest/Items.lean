import HandsOn.Mdtest.Trees
import HandsOn.Semantics.CheckedInt

/-!
# The items of an iteration

Each phase takes every item that was created, whichever process takes it. Where the processes
have directories of their own and take items of each other below the top, an item is looked for
in a directory that no process made.
-/

namespace HandsOn.Mdtest

open Posix Semantics

section

variable (options : Options) (ntasks j : ℕ)

/-- An item that a process takes from a neighbor. -/
def itemAt (dirs : Bool) (rank strides number : ℕ) : Entry Name :=
  itemEntry (treeDir options rank) (itemOf options ntasks dirs rank strides) options.branchFactor
    options.perDir (topdir options ntasks j rank (strides + 1)) number

/-- The items that the processes create, some of them perhaps more than once. -/
def itemsEntries (dirs : Bool) : List (Entry Name) :=
  (List.range ntasks).flatMap fun rank =>
    options.created.map (itemAt options ntasks j dirs rank 0)

/-- The items, each once. -/
def distinctEntries (dirs : Bool) : List (Entry Name) :=
  (List.range ntasks).flatMap fun rank =>
    if !dirs && options.sharedFile && rank ≠ 0 then []
    else options.created.map (itemAt options ntasks j dirs rank 0)

/-- Items that are taken from a neighbor are where that process created them: there is one tree,
or no items below its top, or the neighbor is the process itself. -/
def Tame : Prop :=
  options.uniqueDirPerTask = true →
    options.depth = 0 ∨ options.perDir = 0 ∨ (ntasks : Int) ∣ options.nstride.toInt

instance : Decidable (Tame options ntasks) := inferInstanceAs (Decidable (_ → _))

/-- The stride is not negative, and all strides together stay in the `int`s. -/
structure Ahead : Prop where
  nonneg : 0 ≤ options.nstride
  tasks : ntasks < 2 ^ 31
  fits : ntasks + 4 * options.nstride.toInt ≤ 2 ^ 31

/-- The number of the process some strides further. -/
def shifted (rank strides : ℕ) : ℕ := (rank + strides * options.nstride.toInt.toNat) % ntasks

end

variable {options : Options} {ntasks j : ℕ} {random : ℕ → Option (ℕ → ℕ)} {dirs : Bool}

/-! ### The calls -/

theorem createPhase_eq (dirs : Bool) : createPhase options ntasks j dirs = fun rank =>
    (options.created.map (itemAt options ntasks j dirs rank 0)).map
      ((if dirs then Call.mkdir else .create), ·) := by
  funext rank
  rw [createPhase, createRemoveItems_eq, List.map_map]
  rfl

theorem statPhase_eq (dirs : Bool) : statPhase options ntasks random j dirs = fun rank =>
    ((options.visited (random rank)).map (itemAt options ntasks j dirs rank 1)).map
      (Call.stat, ·) := by
  funext rank
  rw [statPhase, mdtestStat, Options.visited, List.map_map, List.map_map]
  rfl

theorem readPhase_eq : readPhase options ntasks random j = fun rank =>
    ((options.visited (random rank)).map (itemAt options ntasks j false rank 2)).map
      (Call.read, ·) := by
  funext rank
  rw [readPhase, mdtestStat, Options.visited, List.map_map, List.map_map]
  rfl

theorem removePhase_eq (dirs : Bool) : removePhase options ntasks j dirs = fun rank =>
    (if !dirs && options.sharedFile && rank ≠ 0 then []
      else options.created.map (itemAt options ntasks j dirs rank 3)).map
      ((if dirs then Call.rmdir else .unlink), ·) := by
  funext rank
  rw [removePhase]
  split
  · rfl
  · rw [createRemoveItems_eq, List.map_map]
    rfl

/-! ### Neighbors -/

theorem shifted_lt (tasks : 0 < ntasks) (rank strides : ℕ) :
    shifted options ntasks rank strides < ntasks :=
  Nat.mod_lt _ tasks

theorem shifted_zero {rank : ℕ} (task : rank < ntasks) : shifted options ntasks rank 0 = rank := by
  rw [shifted, Nat.zero_mul, Nat.add_zero, Nat.mod_eq_of_lt task]

theorem shifted_shifted (rank strides strides' : ℕ) :
    shifted options ntasks (shifted options ntasks rank strides) strides' =
      shifted options ntasks rank (strides + strides') := by
  rw [shifted, shifted, shifted, Nat.mod_add_mod, Nat.add_mul, Nat.add_assoc]

/-- Every process is the neighbor of one. -/
theorem shifted_perm (options : Options) (ntasks strides : ℕ) :
    ((List.range ntasks).map fun rank => shifted options ntasks rank strides).Perm
      (List.range ntasks) :=
  range_shift_perm ntasks (strides * options.nstride.toInt.toNat)

/-- Without an overflow a neighbor is a process. -/
theorem neighbor_eq (ahead : Ahead options ntasks) {rank strides : ℕ} (task : rank < ntasks)
    (few : strides ≤ 4) :
    neighbor options ntasks rank strides = shifted options ntasks rank strides := by
  obtain ⟨stride, small, same⟩ := CheckedInt.exists_ofNat ahead.nonneg
  have fits := ahead.fits
  have range := Nat.mul_le_mul_right stride few
  rw [same, CheckedInt.toInt_ofNat small] at fits
  rw [neighbor, shifted, same, CheckedInt.toInt_ofNat small, Int.toNat_natCast,
    ← Int32.ofNat_mul, ← Int32.ofNat_add, Int32.toInt_mod, CheckedInt.toInt_ofNat (by omega),
    CheckedInt.toInt_ofNat ahead.tasks, Int.ofNat_tmod]

theorem shifted_of_dvd (ahead : Ahead options ntasks)
    (whole : (ntasks : Int) ∣ options.nstride.toInt) {rank : ℕ} (task : rank < ntasks)
    (strides : ℕ) : shifted options ntasks rank strides = rank := by
  obtain ⟨stride, small, same⟩ := CheckedInt.exists_ofNat ahead.nonneg
  rw [same, CheckedInt.toInt_ofNat small] at whole
  rw [shifted, same, CheckedInt.toInt_ofNat small, Int.toNat_natCast, Nat.add_mod,
    Nat.mod_eq_zero_of_dvd (Dvd.dvd.mul_left (Int.natCast_dvd_natCast.mp whole) _), Nat.add_zero,
    Nat.mod_mod, Nat.mod_eq_of_lt task]

/-! ### Where the items are -/

/-- The directory of an item that is created. -/
theorem div_lt (allowed : options.Allowed) {number : ℕ} (inside : number ∈ options.created) :
    0 < options.perDir ∧
      number / options.perDir < first options.branchFactor (options.depth + 1) 0 := by
  have upper := ((mem_createdNumbers allowed).mp inside).2
  refine ⟨?_, Nat.div_lt_of_lt_mul upper⟩
  apply Nat.pos_of_ne_zero
  intro none'
  rw [none', Nat.zero_mul] at upper
  omega

/-- What makes no difference for the path to an item. -/
theorem parentPath_tame (allowed : options.Allowed) (ahead : Ahead options ntasks)
    (tame : Tame options ntasks) {number : ℕ} (inside : number ∈ options.created)
    {rank strides : ℕ} (task : rank < ntasks) :
    parentPath (treeDir options (shifted options ntasks rank strides)) options.branchFactor
        (number / options.perDir) =
      parentPath (treeDir options rank) options.branchFactor (number / options.perDir) := by
  obtain ⟨some', below⟩ := div_lt allowed inside
  by_cases unique : options.uniqueDirPerTask = true
  · rcases tame unique with flat | nothing | whole
    · rw [flat, first_zero_succ] at below
      rw [Nat.lt_one_iff.mp below, parentPath_zero, parentPath_zero]
    · exact absurd nothing (Nat.ne_of_gt some')
    · rw [shifted_of_dvd ahead whole task]
  · rw [treeDir_shared (Bool.eq_false_of_not_eq_true unique) _ rank]

/-- A process takes from a neighbor what the neighbor created. -/
theorem itemAt_shifted (allowed : options.Allowed) (tasks : 0 < ntasks)
    (ahead : Ahead options ntasks) (tame : Tame options ntasks) {number : ℕ}
    (inside : number ∈ options.created) {rank strides : ℕ} (task : rank < ntasks)
    (few : strides ≤ 3) :
    itemAt options ntasks j dirs rank strides number =
      itemAt options ntasks j dirs (shifted options ntasks rank strides) 0 number := by
  have other : shifted options ntasks rank strides < ntasks := shifted_lt tasks rank strides
  rw [itemAt, itemAt, itemEntry, itemEntry, itemOf, itemOf, topdir, topdir,
    neighbor_eq ahead task (by omega), neighbor_eq ahead task (by omega),
    neighbor_eq ahead other (Nat.zero_le _), neighbor_eq ahead other (by omega),
    shifted_zero other, shifted_shifted, parentPath_tame allowed ahead tame inside task]

/-- All take the same shared files. -/
theorem itemAt_shared (shared : options.sharedFile = true) (one : options.uniqueDirPerTask = false)
    (rank rank' strides strides' number : ℕ) :
    itemAt options ntasks j dirs rank strides number =
      itemAt options ntasks j dirs rank' strides' number := by
  have named :
      itemOf options ntasks dirs rank strides = itemOf options ntasks dirs rank' strides' := by
    funext number
    simp only [itemOf, itemName, itemsName, shared, if_true]
  rw [itemAt, itemAt, itemEntry, itemEntry, named, topdir, topdir, treeDir_shared one rank rank',
    treeDir_shared one (neighbor options ntasks rank (strides + 1))
      (neighbor options ntasks rank' (strides' + 1))]

/-- A phase takes the items that were created. -/
theorem phase_perm (allowed : options.Allowed) (tasks : 0 < ntasks) (ahead : Ahead options ntasks)
    (tame : Tame options ntasks) {numbers : ℕ → List ℕ}
    (all : ∀ rank, (numbers rank).Perm options.created) {strides : ℕ} (few : strides ≤ 3) :
    ((List.range ntasks).flatMap fun rank =>
      (numbers rank).map (itemAt options ntasks j dirs rank strides)).Perm
      (itemsEntries options ntasks j dirs) := by
  have others := (shifted_perm options ntasks strides).flatMap_right
    fun rank => options.created.map (itemAt options ntasks j dirs rank 0)
  rw [List.flatMap_map] at others
  refine .trans (List.Perm.flatMap_left _ fun rank task => ?_) others
  refine ((all rank).map _).trans (.of_eq (List.map_congr_left fun number inside => ?_))
  exact itemAt_shifted allowed tasks ahead tame inside (List.mem_range.mp task) few

/-! ### The items, each once -/

/-- Files of their own, or one tree. -/
def Separate (options : Options) : Prop :=
  options.sharedFile = true → options.uniqueDirPerTask = false

theorem itemAt_inj (ahead : Ahead options ntasks) {rank rank' number number' : ℕ}
    (task : rank < ntasks) (task' : rank' < ntasks)
    (same : itemAt options ntasks j dirs rank 0 number =
      itemAt options ntasks j dirs rank' 0 number') :
    (options.sharedFile = false → rank = rank') ∧ number = number' := by
  obtain ⟨-, owner, count⟩ := itemName_inj (congrArg Entry.name same)
  refine ⟨fun own => ?_, count⟩
  have := owner own
  rw [neighbor_eq ahead task (Nat.zero_le _), neighbor_eq ahead task' (Nat.zero_le _),
    shifted_zero task, shifted_zero task'] at this
  exact Int.ofNat_inj.mp this

theorem nodup_distinctEntries (allowed : options.Allowed) (ahead : Ahead options ntasks)
    (kind : dirs = true → options.sharedFile = false) :
    (distinctEntries options ntasks j dirs).Nodup := by
  refine List.nodup_flatMap.mpr ⟨fun rank task => ?_, List.nodup_range.imp_of_mem ?_⟩
  · split
    · exact List.nodup_nil
    · refine (List.nodup_map_iff_inj_on (nodup_created allowed)).mpr fun a _ b _ same => ?_
      exact (itemAt_inj ahead (List.mem_range.mp task) (List.mem_range.mp task) same).2
  · intro rank rank' task task' different entry here there
    have task := List.mem_range.mp task
    have task' := List.mem_range.mp task'
    beta_reduce at here there
    split at here
    case isTrue => cases here
    case isFalse takes =>
      split at there
      case isTrue => cases there
      case isFalse takes' =>
        obtain ⟨number, -, rfl⟩ := List.mem_map.mp here
        obtain ⟨number', -, same⟩ := List.mem_map.mp there
        by_cases shared : options.sharedFile = true
        · have file : dirs = false := by
            by_contra directory
            rw [kind (Bool.eq_true_of_not_eq_false directory)] at shared
            cases shared
          simp only [file, shared, Bool.not_false, Bool.true_and, decide_eq_true_eq,
            Decidable.not_not] at takes takes'
          exact different (takes.trans takes'.symm)
        · exact different
            ((itemAt_inj ahead task task' same.symm).1 (Bool.eq_false_of_not_eq_true shared))

theorem mem_distinctEntries (tasks : 0 < ntasks) (separate : Separate options)
    {entry : Entry Name} :
    entry ∈ distinctEntries options ntasks j dirs ↔ entry ∈ itemsEntries options ntasks j dirs := by
  simp only [distinctEntries, itemsEntries, List.mem_flatMap, List.mem_range]
  constructor
  · rintro ⟨rank, task, inside⟩
    split at inside
    · cases inside
    · exact ⟨rank, task, inside⟩
  · rintro ⟨rank, task, inside⟩
    by_cases skips : (!dirs && options.sharedFile && rank ≠ 0) = true
    · -- The first process takes it, too.
      have shared : options.sharedFile = true :=
        ((Bool.and_eq_true _ _).mp ((Bool.and_eq_true _ _).mp skips).1).2
      refine ⟨0, tasks, ?_⟩
      rw [if_neg (by simp)]
      obtain ⟨number, listed, rfl⟩ := List.mem_map.mp inside
      exact List.mem_map.mpr ⟨number, listed, itemAt_shared shared (separate shared) _ _ _ _ _⟩
    · refine ⟨rank, task, ?_⟩
      rw [if_neg skips]
      exact inside

theorem paths_distinctEntries (tasks : 0 < ntasks) (separate : Separate options) :
    FileTree.paths (distinctEntries options ntasks j dirs) =
      FileTree.paths (itemsEntries options ntasks j dirs) := by
  ext path
  simp only [FileTree.paths, List.mem_toFinset, List.mem_map, mem_distinctEntries tasks separate]

/-- All items are removed, each once. -/
theorem removed_perm (allowed : options.Allowed) (tasks : 0 < ntasks)
    (ahead : Ahead options ntasks) (tame : Tame options ntasks) (separate : Separate options) :
    ((List.range ntasks).flatMap fun rank =>
      if !dirs && options.sharedFile && rank ≠ 0 then []
      else options.created.map (itemAt options ntasks j dirs rank 3)).Perm
      (distinctEntries options ntasks j dirs) := by
  by_cases shared : (!dirs && options.sharedFile) = true
  · refine .of_eq (List.flatMap_congr fun rank _ => ?_)
    split
    · rfl
    · have file := ((Bool.and_eq_true _ _).mp shared).2
      exact List.map_congr_left fun number _ => itemAt_shared file (separate file) _ _ _ _ _
  · have takes : ∀ rank, ¬ (!dirs && options.sharedFile && decide (rank ≠ 0)) = true :=
      fun rank skips => shared ((Bool.and_eq_true _ _).mp skips).1
    simp only [distinctEntries, if_neg (takes _)]
    exact phase_perm allowed tasks ahead tame (fun _ => .refl _) (by decide)

end HandsOn.Mdtest
