import HandsOn.Life.Patch
import HandsOn.OpenMP.Team

/-!
# The sweeps of a team of threads

`MLIFE_Sweep` of `sweepomp1.c`, `sweepomp2.c` and `sweepomp3.c`, for one process. What
`MLIFE_exchange` delivers into the halo rows is given; an entry is assigned in one step. The
third version exchanges while it sweeps the inner rows, and sweeps the first and the last row
afterwards.
-/

namespace HandsOn.Life

open OpenMP

/-- The variables `matrix` and `temp`. -/
structure Pointers where
  matrix : Buffer
  temp : Buffer
deriving DecidableEq

def Pointers.swap (pointers : Pointers) : Pointers := ⟨pointers.temp, pointers.matrix⟩

/-- The variables after `k` swaps. -/
def pointersAt (k : ℕ) : Pointers := ⟨matrixAt k, tempAt k⟩

/-- What `MLIFE_exchange` delivers: values for some entries of the halo rows. -/
structure Halo (myrows cols : ℕ) where
  targets : List (ℕ × ℕ)
  value : ℕ → ℕ → Int
  outside : ∀ target ∈ targets, (target.1 = 0 ∨ target.1 = myrows + 1) ∧ target.2 < cols + 2

/-- An assignment to an entry of `matrix` or `temp`. -/
inductive Access where
  /-- `MLIFE_exchange` stores a value in `matrix[row][col]`. -/
  | deliver (row col : ℕ) (value : Int)
  /-- `temp[row][col] = MLIFE_nextstate(matrix, source, col)` -/
  | assign (row source col : ℕ)
deriving DecidableEq

/-- The rows of `matrix` that an assignment reads. -/
def Access.rows : Access → List ℕ
  | deliver .. => []
  | assign _ source _ => [source - 1, source, source + 1]

/-- The memory after an assignment. -/
def Access.apply (cols : ℕ) (pointers : Pointers) : Access → Mem → Mem
  | deliver row col value, mem => Function.update mem (entry cols pointers.matrix row col) value
  | assign row source col, mem =>
      Function.update mem (entry cols pointers.temp row col)
        (nextstate (view cols pointers.matrix mem) source col)

/-- What a thread does in one step. -/
inductive Item where
  | access (assignment : Access)
  /-- Swap the thread's own pointers. -/
  | swap
  /-- Swap the pointers that all threads share. -/
  | swapShared
deriving DecidableEq

/-- The rows of `matrix` that a step reads. -/
def Item.rows : Item → List ℕ
  | access assignment => assignment.rows
  | _ => []

/-- The memory and the pointers of each thread. -/
structure Store (threads : ℕ) where
  mem : Mem
  pointers : Fin threads → Pointers

/-- A step of a thread. -/
def execItem (cols : ℕ) {threads : ℕ} (thread : Fin threads) (item : Item)
    (store : Store threads) : Store threads :=
  match item with
  | .access assignment =>
      { store with mem := assignment.apply cols (store.pointers thread) store.mem }
  | .swap =>
      { store with
        pointers := Function.update store.pointers thread (store.pointers thread).swap }
  | .swapShared => { store with pointers := fun thread => (store.pointers thread).swap }

/-- The iterations of a loop that each thread executes, in its order. -/
structure Shares (threads : ℕ) (iterations : List ℕ) where
  share : Fin threads → List ℕ
  complete : ((List.finRange threads).flatMap share).Perm iterations

/-- Who does what: the thread of each `omp single`, the initial thread, and the shares of the
threads in the loops over all rows, the inner rows, and the columns. -/
structure Schedule (threads myrows cols : ℕ) where
  single : ℕ → Fin threads
  initial : Fin threads
  rows : ℕ → Shares threads (List.range' 1 myrows)
  inner : ℕ → Shares threads (List.range' 2 (myrows - 2))
  columns : ℕ → Shares threads (List.range' 1 cols)

/-- What `MLIFE_exchange` does to `matrix`. -/
def Halo.accesses {myrows cols : ℕ} (halo : Halo myrows cols) : List Access :=
  halo.targets.map fun target => .deliver target.1 target.2 (halo.value target.1 target.2)

/-- The iteration of a loop over rows. -/
def rowAccesses (cols i : ℕ) : List Access := (List.range' 1 cols).map fun j => .assign i i j

/-- The iteration of the loop over the columns of the first and the last row. -/
def edgeAccesses (myrows j : ℕ) : List Access := [.assign 1 1 j, .assign myrows 1 j]

/-- One thread has items, the others have none. -/
def onlyBy {threads : ℕ} {α : Type} (thread : Fin threads) (items : List α) :
    Fin threads → List α :=
  fun other => if other = thread then items else []

/-- The versions of `MLIFE_Sweep`. -/
inductive Version where
  | sweepomp1
  | sweepomp2
  | sweepomp3
deriving DecidableEq

section

variable {threads myrows cols : ℕ} (schedule : Schedule threads myrows cols)
  (halos : ℕ → Halo myrows cols)

/-- What the threads do in iteration `k` up to the first barrier. -/
def firstAccesses (k : ℕ) : Version → Fin threads → List Access
  | .sweepomp1 => onlyBy (schedule.single k) (halos k).accesses
  | .sweepomp2 => onlyBy schedule.initial (halos k).accesses
  | .sweepomp3 => fun thread =>
      onlyBy (schedule.single k) (halos k).accesses thread ++
        ((schedule.inner k).share thread).flatMap (rowAccesses cols)

/-- What the threads do in iteration `k` up to the second barrier. -/
def secondAccesses (k : ℕ) : Version → Fin threads → List Access
  | .sweepomp1 => fun thread => ((schedule.rows k).share thread).flatMap (rowAccesses cols)
  | .sweepomp2 => fun thread => ((schedule.rows k).share thread).flatMap (rowAccesses cols)
  | .sweepomp3 => fun thread => ((schedule.columns k).share thread).flatMap (edgeAccesses myrows)

/-- How the pointers are swapped. -/
def swaps : Version → Fin threads → List Item
  | .sweepomp1 => fun _ => [.swap]
  | .sweepomp2 => onlyBy schedule.initial [.swapShared]
  | .sweepomp3 => fun _ => [.swap]

/-- `MLIFE_Sweep`, with three barriers in each iteration. -/
def sweepTeam (ntimes : ℕ) (version : Version) : Team threads Item (Store threads) where
  phases := 3 * ntimes
  work phase :=
    match phase % 3 with
    | 0 => fun thread => (firstAccesses schedule halos (phase / 3) version thread).map .access
    | 1 => fun thread => (secondAccesses schedule (phase / 3) version thread).map .access
    | _ => swaps schedule version
  exec := execItem cols

end

/-- `matrix` and `temp` when `MLIFE_Sweep` is called. -/
def sweepStart (threads : ℕ) (mem : Mem) : Store threads := ⟨mem, fun _ => pointersAt 0⟩

/-- The delivered values are in the halo rows of `matrix`. -/
def Halo.deliver {myrows cols : ℕ} (halo : Halo myrows cols) (matrix : Buffer) (mem : Mem) : Mem :=
  halo.targets.foldl (fun mem target =>
    Function.update mem (entry cols matrix target.1 target.2) (halo.value target.1 target.2)) mem

/-- The main loop of `life` in `mlife.c`, on the same halos. -/
def lifeLoop {myrows cols : ℕ} (halos : ℕ → Halo myrows cols) (mem : Mem) : ℕ → Mem
  | 0 => mem
  | k + 1 =>
      sweep myrows cols (matrixAt k) (tempAt k)
        ((halos k).deliver (matrixAt k) (lifeLoop halos mem k))

/-- A version leaves the cells of the plain loop in `matrix` after each iteration, and reads
the rows of the block and its halo only. -/
structure Agrees {threads myrows cols : ℕ} (schedule : Schedule threads myrows cols)
    (halos : ℕ → Halo myrows cols) (mem : Mem) (ntimes : ℕ) (version : Version) : Prop where
  cells : ∀ state,
    ((sweepTeam schedule halos ntimes version).system (sweepStart threads mem)).Reachable state →
    ∀ k ≤ ntimes, (sweepTeam schedule halos ntimes version).AtBarrier (3 * k) state →
      ∀ thread row col, Inside myrows cols row col →
        view cols (state.store.pointers thread).matrix state.store.mem row col =
          view cols (matrixAt k) (lifeLoop halos mem k) row col
  rows : ∀ state,
    ((sweepTeam schedule halos ntimes version).system (sweepStart threads mem)).Reachable state →
    ∀ thread, ∀ item ∈ state.todo thread, ∀ row ∈ item.rows, row ≤ myrows + 1

end HandsOn.Life
