import HandsOn.Mdtest.Visits
import HandsOn.Posix.Phases

/-!
# An iteration of the program

Between barriers every process makes its own calls. With a stride between neighbors each phase
takes what another process created, and with a directory for each process it takes the items of
that process in the directory of that process.
-/

namespace HandsOn.Mdtest

open Posix Semantics

/-- `prep_testdir`: the directory of iteration `j`, of the only loop. -/
def testdir (j : ℕ) : Entry Name := ⟨[], "#test-dir.".toList ++ digits j ++ "-0".toList⟩

section

variable (options : Options) (ntasks : ℕ) (random : ℕ → Option (ℕ → ℕ)) (j : ℕ)

/-- The process some strides further, in `int`s. -/
def neighbor (rank strides : ℕ) : Int :=
  ((Int32.ofNat rank + Int32.ofNat strides * options.nstride) % Int32.ofNat ntasks).toInt

/-- `base_tree_name` with the number of a directory. -/
def treeDir (rank : Int) : ℕ → Name := treeName options.uniqueDirPerTask rank

/-- `mk_name`, `stat_name`, `read_name` and `rm_name`, each one stride further. -/
def itemOf (dirs : Bool) (rank strides : ℕ) : ℕ → Name :=
  itemName dirs options.sharedFile (neighbor options ntasks rank strides)

/-- The directory in which the phases work: `unique_chdir_dir`, `unique_stat_dir`,
`unique_read_dir` and `unique_rm_dir`, or the one that all share. -/
def topdir (rank strides : ℕ) : List Name :=
  (testdir j).path ++ [treeDir options (neighbor options ntasks rank strides) 0]

/-- The creation of items. -/
def createPhase (dirs : Bool) (rank : ℕ) : Calls :=
  createRemoveItems (treeDir options rank) (itemOf options ntasks dirs rank 0)
    options.branchFactor (if dirs then .mkdir else .create) options.leafOnly options.perDir
    options.depth (topdir options ntasks j rank 1)

/-- The items are asked for. -/
def statPhase (dirs : Bool) (rank : ℕ) : Calls :=
  mdtestStat (treeDir options rank) (itemOf options ntasks dirs rank 1) options.branchFactor
    .stat options.leafOnly options.perDir options.depth options.total
    (pick (random rank) options.total) (topdir options ntasks j rank 2)

/-- The files are read. -/
def readPhase (rank : ℕ) : Calls :=
  mdtestStat (treeDir options rank) (itemOf options ntasks false rank 2) options.branchFactor
    .read options.leafOnly options.perDir options.depth options.total
    (pick (random rank) options.total) (topdir options ntasks j rank 3)

/-- The items are removed, a shared file by the first process only. -/
def removePhase (dirs : Bool) (rank : ℕ) : Calls :=
  if !dirs && options.sharedFile && rank ≠ 0 then []
  else createRemoveItems (treeDir options rank) (itemOf options ntasks dirs rank 3)
    options.branchFactor (if dirs then .rmdir else .unlink) options.leafOnly options.perDir
    options.depth (topdir options ntasks j rank 4)

/-- `directory_test` -/
def directoryTest : List (Phase Name) :=
  (if options.createOnly then [createPhase options ntasks j true] else []) ++
  (if options.statOnly then [statPhase options ntasks random j true] else []) ++
  (if options.removeOnly then [removePhase options ntasks j true] else [])

/-- `file_test` -/
def fileTest : List (Phase Name) :=
  (if options.createOnly then [createPhase options ntasks j false] else []) ++
  (if options.statOnly then [statPhase options ntasks random j false] else []) ++
  (if options.readOnly then [readPhase options ntasks random j] else []) ++
  (if options.removeOnly then [removePhase options ntasks j false] else [])

/-- The trees of directories, one for each process or one that the first process makes. -/
def treePhase (create : Bool) (rank : ℕ) : Calls :=
  if options.uniqueDirPerTask || rank = 0 then
    createRemoveDirectoryTree (treeDir options rank) options.branchFactor create options.depth
      (testdir j).path
  else []

/-- The phases of `mdtest_iteration` in the test directory. -/
def phases : List (Phase Name) :=
  (if options.createOnly then [treePhase options j true] else []) ++
  ((if options.dirsOnly && !options.sharedFile then directoryTest options ntasks random j
    else []) ++
  ((if options.filesOnly then fileTest options ntasks random j else []) ++
  (if options.removeOnly then [treePhase options j false] else [])))

/-- `mdtest_iteration` with the calls of each phase in some order. -/
def mdtestIteration (tree : FileTree Name) (orders : List Calls) : Option (FileTree Name) := do
  let tree ←
    if (testdir j).path ∈ tree.dirs ∪ tree.files then some tree else tree.mkdir (testdir j)
  let tree ← tree.run orders.flatten
  if options.removeOnly && (testdir j).path ∈ tree.dirs ∪ tree.files then tree.rmdir (testdir j)
  else some tree

end

end HandsOn.Mdtest
