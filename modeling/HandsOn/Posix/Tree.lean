import HandsOn.Semantics.Interleaving
import Mathlib.Data.Finset.Basic
import Mathlib.Data.Finset.Image

/-!
# Trees of directories and files

A tree has its directories and files by their paths from the root; an entry is always in a
directory. The calls fail as POSIX says. What was created in any order in which each directory
comes before its entries can be removed in any order in which it comes after them.
-/

namespace HandsOn.Posix

open Semantics

universe u

section

variable (Name : Type u) [DecidableEq Name]

/-- Directories and files. -/
@[ext]
structure FileTree where
  dirs : Finset (List Name)
  files : Finset (List Name)
  root : [] ∈ dirs
  apart : Disjoint dirs files
  parents : ∀ path name, path ++ [name] ∈ dirs ∪ files → path ∈ dirs

/-- An entry of a directory, there or not. -/
structure Entry where
  dir : List Name
  name : Name
deriving DecidableEq

end

/-- The calls. -/
inductive Call where
  | mkdir
  | create
  | stat
  | read
  | unlink
  | rmdir
deriving DecidableEq

variable {Name : Type u}

/-- The path of an entry. -/
def Entry.path (entry : Entry Name) : List Name := entry.dir ++ [entry.name]

theorem Entry.path_injective : Function.Injective (Entry.path : Entry Name → List Name) := by
  rintro ⟨dir, name⟩ ⟨dir', name'⟩ same
  obtain ⟨rfl, names⟩ := List.append_inj' same rfl
  obtain rfl := List.singleton_injective names
  rfl

theorem Entry.path_ne_nil (entry : Entry Name) : entry.path ≠ [] := by
  simp [path]

/-! ### Orders -/

/-- Each directory comes before its entries, if it is not there. -/
def Founded (dirs : Finset (List Name)) (entries : List (Entry Name)) : Prop :=
  ∀ earlier entry later, entries = earlier ++ entry :: later →
    entry.dir ∈ dirs ∨ ∃ other ∈ earlier, other.path = entry.dir

theorem founded_of_there {dirs : Finset (List Name)} {entries : List (Entry Name)}
    (there : ∀ entry ∈ entries, entry.dir ∈ dirs) : Founded dirs entries := by
  rintro earlier entry later rfl
  exact .inl (there entry (by simp))

/-- Several processes, each of which keeps the order, keep it together. -/
theorem Founded.interleaved {dirs : Finset (List Name)} {nprocs : ℕ}
    {own : ℕ → List (Entry Name)} {all : List (Entry Name)}
    (founded : ∀ rank < nprocs, Founded dirs (own rank)) (distinct : all.Nodup)
    (interleaved : Interleaved nprocs own all) : Founded dirs all := by
  intro earlier entry later here
  obtain ⟨rank, task, inside⟩ := interleaved.mem_iff.mp
    (here ▸ List.mem_append_right earlier List.mem_cons_self)
  obtain ⟨earlier', later', there⟩ := List.append_of_mem inside
  rcases founded rank task earlier' entry later' there with known | ⟨other, before, same⟩
  · exact .inl known
  · exact .inr ⟨other, interleaved.before distinct task here there before, same⟩

/-- Several orders, one after the other. -/
theorem Founded.flatMap {Index : Type*} {dirs : Finset (List Name)} {indices : List Index}
    {entries : Index → List (Entry Name)}
    (founded : ∀ index ∈ indices, Founded dirs (entries index)) :
    Founded dirs (indices.flatMap entries) := by
  induction indices with
  | nil => exact founded_of_there fun _ inside => absurd inside List.not_mem_nil
  | cons first rest ih =>
      have later := ih fun index inside => founded index (List.mem_cons_of_mem _ inside)
      have now := founded first List.mem_cons_self
      intro earlier entry after here
      rw [List.flatMap_cons] at here
      rcases List.append_eq_append_iff.mp here with
        ⟨between, longer, same⟩ | ⟨between, longer, same⟩
      · rcases later between entry after same with known | ⟨other, before, above⟩
        · exact .inl known
        · exact .inr ⟨other, longer ▸ List.mem_append_right _ before, above⟩
      · cases between with
        | nil =>
            rcases later [] entry after same.symm with known | ⟨_, nothing, _⟩
            · exact .inl known
            · cases nothing
        | cons entry' between =>
            obtain ⟨rfl, -⟩ := List.cons.inj same
            exact now earlier entry between longer

variable [DecidableEq Name]

/-- A directory that is there, and what is in order once it is there. -/
theorem Founded.cons {dirs : Finset (List Name)} {first : Entry Name} {rest : List (Entry Name)}
    (there : first.dir ∈ dirs) (founded : Founded (insert first.path dirs) rest) :
    Founded dirs (first :: rest) := by
  intro earlier entry later here
  cases earlier with
  | nil =>
      obtain ⟨rfl, -⟩ := List.cons.inj here
      exact .inl there
  | cons first' earlier =>
      obtain ⟨rfl, tail⟩ := List.cons.inj here
      rcases founded earlier entry later tail with known | ⟨other, before, same⟩
      · rcases Finset.mem_insert.mp known with same | known
        · exact .inr ⟨first, List.mem_cons_self, same.symm⟩
        · exact .inl known
      · exact .inr ⟨other, List.mem_cons_of_mem _ before, same⟩

namespace FileTree

variable (tree : FileTree Name)

/-- `mkdir`: the entry must not be there. -/
def mkdir (entry : Entry Name) : Option (FileTree Name) :=
  if h : entry.dir ∈ tree.dirs ∧ entry.path ∉ tree.dirs ∧ entry.path ∉ tree.files then
    some
      { dirs := insert entry.path tree.dirs
        files := tree.files
        root := Finset.mem_insert_of_mem tree.root
        apart := Finset.disjoint_insert_left.mpr ⟨h.2.2, tree.apart⟩
        parents := by
          intro path name there
          rw [Finset.insert_union, Finset.mem_insert] at there
          apply Finset.mem_insert_of_mem
          rcases there with same | there
          · obtain ⟨rfl, -⟩ := List.append_inj' same rfl
            exact h.1
          · exact tree.parents path name there }
  else none

/-- `open` with `O_CREAT`: a file that is there stays. -/
def create (entry : Entry Name) : Option (FileTree Name) :=
  if h : entry.dir ∈ tree.dirs ∧ entry.path ∉ tree.dirs then
    some
      { dirs := tree.dirs
        files := insert entry.path tree.files
        root := tree.root
        apart := Finset.disjoint_insert_right.mpr ⟨h.2, tree.apart⟩
        parents := by
          intro path name there
          rw [Finset.union_insert, Finset.mem_insert] at there
          rcases there with same | there
          · obtain ⟨rfl, -⟩ := List.append_inj' same rfl
            exact h.1
          · exact tree.parents path name there }
  else none

/-- `unlink` of a file. -/
def unlink (entry : Entry Name) : Option (FileTree Name) :=
  if entry.path ∈ tree.files then
    some
      { dirs := tree.dirs
        files := tree.files.erase entry.path
        root := tree.root
        apart := tree.apart.mono_right (Finset.erase_subset _ _)
        parents := fun path name there => tree.parents path name (Finset.union_subset_union
          (Finset.Subset.refl _) (Finset.erase_subset _ _) there) }
  else none

/-- `rmdir` of a directory without entries. -/
def rmdir (entry : Entry Name) : Option (FileTree Name) :=
  if h : entry.path ∈ tree.dirs ∧ ∀ path ∈ tree.dirs ∪ tree.files, path.dropLast ≠ entry.path then
    some
      { dirs := tree.dirs.erase entry.path
        files := tree.files
        root := Finset.mem_erase.mpr ⟨entry.path_ne_nil.symm, tree.root⟩
        apart := tree.apart.mono_left (Finset.erase_subset _ _)
        parents := by
          intro path name there
          have before := Finset.union_subset_union (Finset.erase_subset _ _)
            (Finset.Subset.refl _) there
          refine Finset.mem_erase.mpr ⟨fun same => h.2 _ before ?_, tree.parents _ _ before⟩
          rw [List.dropLast_concat, same] }
  else none

/-- One call on an entry. -/
def step : Call × Entry Name → Option (FileTree Name)
  | (.mkdir, entry) => tree.mkdir entry
  | (.create, entry) => tree.create entry
  | (.stat, entry) => if entry.path ∈ tree.dirs ∪ tree.files then some tree else none
  | (.read, entry) => if entry.path ∈ tree.files then some tree else none
  | (.unlink, entry) => tree.unlink entry
  | (.rmdir, entry) => tree.rmdir entry

/-- Calls one after the other, none of which fails. -/
def run (calls : List (Call × Entry Name)) : Option (FileTree Name) := calls.foldlM step tree

variable {tree} {tree' : FileTree Name} {entry : Entry Name}

@[simp] theorem run_nil : tree.run [] = some tree := rfl

theorem run_cons {call : Call × Entry Name} {calls : List (Call × Entry Name)} :
    tree.run (call :: calls) = (tree.step call).bind (·.run calls) := rfl

theorem run_append {first second : List (Call × Entry Name)} :
    tree.run (first ++ second) = (tree.run first).bind (·.run second) := by
  rw [run, List.foldlM_append]
  rfl

/-- Runs that follow each other. -/
theorem run_append_of {first second : List (Call × Entry Name)}
    (ran : tree.run first = some tree') : tree.run (first ++ second) = tree'.run second := by
  rw [run_append, ran, Option.bind_some]

/-! ### What each call does -/

theorem mkdir_eq_some : tree.mkdir entry = some tree' ↔
    (entry.dir ∈ tree.dirs ∧ entry.path ∉ tree.dirs ∧ entry.path ∉ tree.files) ∧
      tree'.dirs = insert entry.path tree.dirs ∧ tree'.files = tree.files := by
  rw [mkdir, Option.dite_none_right_eq_some]
  constructor
  · rintro ⟨allowed, same⟩
    obtain rfl := Option.some.inj same
    exact ⟨allowed, rfl, rfl⟩
  · rintro ⟨allowed, dirs, files⟩
    exact ⟨allowed, congrArg some (FileTree.ext dirs.symm files.symm)⟩

theorem create_eq_some : tree.create entry = some tree' ↔
    (entry.dir ∈ tree.dirs ∧ entry.path ∉ tree.dirs) ∧
      tree'.dirs = tree.dirs ∧ tree'.files = insert entry.path tree.files := by
  rw [create, Option.dite_none_right_eq_some]
  constructor
  · rintro ⟨allowed, same⟩
    obtain rfl := Option.some.inj same
    exact ⟨allowed, rfl, rfl⟩
  · rintro ⟨allowed, dirs, files⟩
    exact ⟨allowed, congrArg some (FileTree.ext dirs.symm files.symm)⟩

theorem unlink_eq_some : tree.unlink entry = some tree' ↔
    entry.path ∈ tree.files ∧
      tree'.dirs = tree.dirs ∧ tree'.files = tree.files.erase entry.path := by
  rw [unlink, Option.ite_none_right_eq_some]
  refine and_congr_right fun there => ⟨fun same => ?_, fun ⟨dirs, files⟩ => ?_⟩
  · obtain rfl := Option.some.inj same
    exact ⟨rfl, rfl⟩
  · exact congrArg some (FileTree.ext dirs.symm files.symm)

theorem rmdir_eq_some : tree.rmdir entry = some tree' ↔
    (entry.path ∈ tree.dirs ∧ ∀ path ∈ tree.dirs ∪ tree.files, path.dropLast ≠ entry.path) ∧
      tree'.dirs = tree.dirs.erase entry.path ∧ tree'.files = tree.files := by
  rw [rmdir, Option.dite_none_right_eq_some]
  constructor
  · rintro ⟨allowed, same⟩
    obtain rfl := Option.some.inj same
    exact ⟨allowed, rfl, rfl⟩
  · rintro ⟨allowed, dirs, files⟩
    exact ⟨allowed, congrArg some (FileTree.ext dirs.symm files.symm)⟩

/-- Nothing is in a directory that is not there. -/
theorem dropLast_ne (absent : entry.path ∉ tree.dirs) {path : List Name}
    (there : path ∈ tree.dirs ∪ tree.files) : path.dropLast ≠ entry.path := by
  intro above
  rcases List.eq_nil_or_concat path with rfl | ⟨dir, name, rfl⟩
  · exact entry.path_ne_nil above.symm
  · rw [List.concat_eq_append] at above there
    rw [List.dropLast_concat] at above
    exact absent (above ▸ tree.parents dir name there)

/-- Everything above an entry is there. -/
theorem prefix_mem {path rest : List Name} (there : path ++ rest ∈ tree.dirs ∪ tree.files) :
    path ∈ tree.dirs ∪ tree.files := by
  induction rest using List.reverseRecOn with
  | nil => rwa [List.append_nil] at there
  | append_singleton rest name ih =>
      rw [← List.append_assoc] at there
      exact ih (Finset.mem_union_left _ (tree.parents _ _ there))

/-! ### Undoing -/

theorem rmdir_mkdir (made : tree.mkdir entry = some tree') : tree'.rmdir entry = some tree := by
  obtain ⟨⟨-, noDir, -⟩, dirs, files⟩ := mkdir_eq_some.mp made
  refine rmdir_eq_some.mpr
    ⟨⟨dirs ▸ Finset.mem_insert_self _ _, fun path there => ?_⟩, ?_, files.symm⟩
  · rw [dirs, files, Finset.insert_union, Finset.mem_insert] at there
    rcases there with rfl | there
    · intro above
      have shorter := congrArg List.length above
      rw [List.length_dropLast, Entry.path, List.length_append, List.length_singleton] at shorter
      omega
    · exact dropLast_ne noDir there
  · rw [dirs, Finset.erase_insert noDir]

theorem unlink_create (made : tree.create entry = some tree') (new : entry.path ∉ tree.files) :
    tree'.unlink entry = some tree := by
  obtain ⟨-, dirs, files⟩ := create_eq_some.mp made
  refine unlink_eq_some.mpr ⟨files ▸ Finset.mem_insert_self _ _, dirs.symm, ?_⟩
  rw [files, Finset.erase_insert new]

/-! ### Creating in any order -/

/-- The paths of entries. -/
def paths (entries : List (Entry Name)) : Finset (List Name) :=
  (entries.map Entry.path).toFinset

@[simp] theorem paths_nil : paths ([] : List (Entry Name)) = ∅ := rfl

@[simp] theorem paths_cons (first : Entry Name) (rest : List (Entry Name)) :
    paths (first :: rest) = insert first.path (paths rest) := by
  simp [paths]

theorem mem_paths {entries : List (Entry Name)} {entry : Entry Name} :
    entry.path ∈ paths entries ↔ entry ∈ entries := by
  rw [paths, List.mem_toFinset]
  exact List.mem_map_of_injective Entry.path_injective

theorem paths_perm {first second : List (Entry Name)} (same : first.Perm second) :
    paths first = paths second :=
  List.toFinset_eq_of_perm _ _ (same.map _)

theorem founded_rest {dirs : Finset (List Name)} {first : Entry Name} {rest : List (Entry Name)}
    (founded : Founded dirs (first :: rest)) : Founded (insert first.path dirs) rest := by
  rintro earlier entry later rfl
  rcases founded (first :: earlier) entry later rfl with there | ⟨other, inside, same⟩
  · exact .inl (Finset.mem_insert_of_mem there)
  · rcases List.mem_cons.mp inside with rfl | inside
    · exact .inl (same ▸ Finset.mem_insert_self _ _)
    · exact .inr ⟨other, inside, same⟩

/-- New directories can be made in such an order. -/
theorem run_mkdir {entries : List (Entry Name)} (distinct : entries.Nodup)
    (new : ∀ entry ∈ entries, entry.path ∉ tree.dirs ∪ tree.files)
    (founded : Founded tree.dirs entries) :
    ∃ tree' : FileTree Name, tree.run (entries.map (Call.mkdir, ·)) = some tree' ∧
      tree'.dirs = tree.dirs ∪ paths entries ∧ tree'.files = tree.files := by
  induction entries generalizing tree with
  | nil => exact ⟨tree, rfl, (Finset.union_empty _).symm, rfl⟩
  | cons first rest ih =>
      obtain ⟨apart, distinct⟩ := List.nodup_cons.mp distinct
      have absent := new first List.mem_cons_self
      rw [Finset.mem_union, not_or] at absent
      have inside : first.dir ∈ tree.dirs := by
        rcases founded [] first rest rfl with there | ⟨_, nothing, _⟩
        · exact there
        · cases nothing
      obtain ⟨next, made, dirs, files⟩ : ∃ next, tree.mkdir first = some next ∧
          next.dirs = insert first.path tree.dirs ∧ next.files = tree.files := by
        obtain ⟨next, made⟩ : ∃ next, tree.mkdir first = some next :=
          ⟨_, dif_pos ⟨inside, absent⟩⟩
        exact ⟨next, made, (mkdir_eq_some.mp made).2⟩
      have new' : ∀ entry ∈ rest, entry.path ∉ next.dirs ∪ next.files := by
        intro entry listed there
        rw [dirs, files, Finset.insert_union, Finset.mem_insert] at there
        rcases there with same | there
        · exact apart (Entry.path_injective same ▸ listed)
        · exact new entry (List.mem_cons_of_mem _ listed) there
      obtain ⟨last, ran, dirs', files'⟩ := ih distinct new' (dirs ▸ founded_rest founded)
      refine ⟨last, ?_, ?_, files'.trans files⟩
      · rw [List.map_cons, run_cons, step, made, Option.bind_some, ran]
      · rw [dirs', dirs, paths_cons, Finset.insert_union, Finset.union_insert]

/-- Files can be created in any order, and more than once. -/
theorem run_create {entries : List (Entry Name)}
    (allowed : ∀ entry ∈ entries, entry.dir ∈ tree.dirs ∧ entry.path ∉ tree.dirs) :
    ∃ tree' : FileTree Name, tree.run (entries.map (Call.create, ·)) = some tree' ∧
      tree'.dirs = tree.dirs ∧ tree'.files = tree.files ∪ paths entries := by
  induction entries generalizing tree with
  | nil => exact ⟨tree, rfl, rfl, (Finset.union_empty _).symm⟩
  | cons first rest ih =>
      obtain ⟨next, made⟩ : ∃ next, tree.create first = some next :=
        ⟨_, dif_pos (allowed first List.mem_cons_self)⟩
      obtain ⟨-, dirs, files⟩ := create_eq_some.mp made
      have allowed' : ∀ entry ∈ rest, entry.dir ∈ next.dirs ∧ entry.path ∉ next.dirs := by
        intro entry listed
        rw [dirs]
        exact allowed entry (List.mem_cons_of_mem _ listed)
      obtain ⟨last, ran, dirs', files'⟩ := ih allowed'
      refine ⟨last, ?_, dirs'.trans dirs, ?_⟩
      · rw [List.map_cons, run_cons, step, made, Option.bind_some, ran]
      · rw [files', files, paths_cons, Finset.insert_union, Finset.union_insert]

/-- What is there can be asked for in any order. -/
theorem run_stat {entries : List (Entry Name)}
    (there : ∀ entry ∈ entries, entry.path ∈ tree.dirs ∪ tree.files) :
    tree.run (entries.map (Call.stat, ·)) = some tree := by
  induction entries with
  | nil => rfl
  | cons first rest ih =>
      rw [List.map_cons, run_cons, step, if_pos (there first List.mem_cons_self), Option.bind_some]
      exact ih fun entry listed => there entry (List.mem_cons_of_mem _ listed)

/-- Files that are there can be read in any order. -/
theorem run_read {entries : List (Entry Name)}
    (there : ∀ entry ∈ entries, entry.path ∈ tree.files) :
    tree.run (entries.map (Call.read, ·)) = some tree := by
  induction entries with
  | nil => rfl
  | cons first rest ih =>
      rw [List.map_cons, run_cons, step, if_pos (there first List.mem_cons_self), Option.bind_some]
      exact ih fun entry listed => there entry (List.mem_cons_of_mem _ listed)

/-- A directory cannot be made in one that is neither there nor made. -/
theorem run_mkdir_none {entries : List (Entry Name)} {entry : Entry Name} (listed : entry ∈ entries)
    (absent : entry.dir ∉ tree.dirs ∪ paths entries) :
    tree.run (entries.map (Call.mkdir, ·)) = none := by
  induction entries generalizing tree with
  | nil => cases listed
  | cons first rest ih =>
      rw [List.map_cons, run_cons, step, Option.bind_eq_none_iff]
      intro next made
      obtain ⟨⟨there, -⟩, dirs, -⟩ := mkdir_eq_some.mp made
      rcases List.mem_cons.mp listed with rfl | listed
      · exact absurd (Finset.mem_union_left _ there) absent
      · refine ih listed fun known => absent ?_
        rwa [dirs, Finset.insert_union, ← Finset.union_insert, ← paths_cons] at known

/-- A file cannot be created in a directory that is not there. -/
theorem run_create_none {entries : List (Entry Name)} {entry : Entry Name}
    (listed : entry ∈ entries) (absent : entry.dir ∉ tree.dirs) :
    tree.run (entries.map (Call.create, ·)) = none := by
  induction entries generalizing tree with
  | nil => cases listed
  | cons first rest ih =>
      rw [List.map_cons, run_cons, step, Option.bind_eq_none_iff]
      intro next made
      obtain ⟨⟨there, -⟩, dirs, -⟩ := create_eq_some.mp made
      rcases List.mem_cons.mp listed with rfl | listed
      · exact absurd there absent
      · exact ih listed (dirs ▸ absent)

/-! ### Removing in any order -/

/-- Directories are removed in the opposite order. -/
theorem run_rmdir_reverse {entries : List (Entry Name)}
    (made : tree.run (entries.map (Call.mkdir, ·)) = some tree') :
    tree'.run (entries.reverse.map (Call.rmdir, ·)) = some tree := by
  induction entries generalizing tree with
  | nil => exact made.symm
  | cons first rest ih =>
      obtain ⟨next, here, later⟩ := Option.bind_eq_some_iff.mp made
      rw [List.reverse_cons, List.map_append, run_append_of (ih later), List.map_singleton,
        run_cons, step, rmdir_mkdir here]
      rfl

/-- New files are removed in the opposite order. -/
theorem run_unlink_reverse {entries : List (Entry Name)} (distinct : entries.Nodup)
    (new : ∀ entry ∈ entries, entry.path ∉ tree.files)
    (made : tree.run (entries.map (Call.create, ·)) = some tree') :
    tree'.run (entries.reverse.map (Call.unlink, ·)) = some tree := by
  induction entries generalizing tree with
  | nil => exact made.symm
  | cons first rest ih =>
      obtain ⟨apart, distinct⟩ := List.nodup_cons.mp distinct
      obtain ⟨next, here, later⟩ := Option.bind_eq_some_iff.mp made
      have files := (create_eq_some.mp here).2.2
      have undone := ih distinct (fun entry listed there => by
        rw [files, Finset.mem_insert] at there
        rcases there with same | there
        · exact apart (Entry.path_injective same ▸ listed)
        · exact new entry (List.mem_cons_of_mem _ listed) there) later
      rw [List.reverse_cons, List.map_append, run_append_of undone, List.map_singleton,
        run_cons, step, unlink_create here (new first List.mem_cons_self)]
      rfl

/-- Directories that were made can be removed if each comes after its entries. -/
theorem run_rmdir {entries : List (Entry Name)} (distinct : entries.Nodup)
    (new : ∀ entry ∈ entries, entry.path ∉ tree.dirs ∪ tree.files)
    (founded : Founded tree.dirs entries.reverse)
    (dirs : tree'.dirs = tree.dirs ∪ paths entries) (files : tree'.files = tree.files) :
    tree'.run (entries.map (Call.rmdir, ·)) = some tree := by
  obtain ⟨built, made, dirs', files'⟩ := run_mkdir (List.nodup_reverse.mpr distinct)
    (fun entry listed => new entry (List.mem_reverse.mp listed)) founded
  have same : built = tree' := by
    apply FileTree.ext
    · rw [dirs', dirs, paths_perm entries.reverse_perm]
    · rw [files', files]
  rw [← same]
  simpa using run_rmdir_reverse made

/-- Files that were created can be removed in any order. -/
theorem run_unlink {entries : List (Entry Name)} (distinct : entries.Nodup)
    (allowed : ∀ entry ∈ entries, entry.dir ∈ tree.dirs ∧ entry.path ∉ tree.dirs)
    (new : ∀ entry ∈ entries, entry.path ∉ tree.files)
    (dirs : tree'.dirs = tree.dirs) (files : tree'.files = tree.files ∪ paths entries) :
    tree'.run (entries.map (Call.unlink, ·)) = some tree := by
  have allowed' : ∀ entry ∈ entries.reverse, entry.dir ∈ tree.dirs ∧ entry.path ∉ tree.dirs :=
    fun entry listed => allowed entry (List.mem_reverse.mp listed)
  obtain ⟨built, made, dirs', files'⟩ := run_create allowed'
  have same : built = tree' := by
    apply FileTree.ext
    · rw [dirs', dirs]
    · rw [files', files, paths_perm entries.reverse_perm]
  rw [← same]
  simpa using run_unlink_reverse (List.nodup_reverse.mpr distinct)
    (fun entry listed => new entry (List.mem_reverse.mp listed)) made

end FileTree

end HandsOn.Posix
