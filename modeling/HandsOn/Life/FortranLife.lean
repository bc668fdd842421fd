import HandsOn.Life.MeshLife
import HandsOn.Semantics.Fortran

/-!
# Life in Fortran

`life` of `mlife2df.f` keeps its two arrays in place and calculates two generations in each
iteration of its loop, one into `matrix2` and one back into `matrix`. The processes run it in
step: between two calls of `MLIFE_exchange` each works on its own arrays. Integers are
unbounded. Elements of an array are counted from zero, so that a patch with its halo of one
cell has its interior from row and column one on.
-/

namespace HandsOn.Life.Fortran

open Semantics.Fortran

abbrev Array2 := Elements Int

/-- `integer matrix(MaxLRows,MaxLCols)` -/
def fromOne : Bounds := ⟨1, 100, 100⟩

/-- `integer matrix(0:MaxLRows-1,0:MaxLCols-1)` -/
def fromZero : Bounds := ⟨0, 100, 100⟩

/-- `mlife_nextstate` -/
def mlifeNextstate (matrix : Array2) (row col : Int) : Except Fault Int := do
  let sum := (← fromOne.element matrix (row - 1) (col - 1)) +
    (← fromOne.element matrix (row - 1) col) + (← fromOne.element matrix (row - 1) (col + 1)) +
    (← fromOne.element matrix row (col - 1)) + (← fromOne.element matrix row (col + 1)) +
    (← fromOne.element matrix (row + 1) (col - 1)) + (← fromOne.element matrix (row + 1) col) +
    (← fromOne.element matrix (row + 1) (col + 1))
  let result ← fromOne.element matrix row col
  return if sum < 2 ∨ sum > 3 then dies else if sum = 3 then born else result

/-- `MLIFE2D_InitEdge` -/
def mlife2dInitEdge (lRows lCols : ℕ) (matrix : Array2) : Except Fault Array2 := do
  let matrix ← fromZero.fill 0 (lRows + 1) 0 (lCols + 1) (fun _ _ => .ok dies) matrix
  let matrix ← fromZero.assign (lRows - 2) lCols born matrix
  let matrix ← fromZero.assign (lRows - 1) lCols born matrix
  fromZero.assign lRows lCols born matrix

/-- The arrays of a process. -/
structure Arrays where
  matrix : Array2
  matrix2 : Array2

/-- Assign `DIES` to two elements of `matrix` and to the same ones of `matrix2`. -/
def Arrays.setDies (i j i' j' : Int) (arrays : Arrays) : Except Fault Arrays := do
  let matrix ← fromOne.assign i j dies arrays.matrix
  let matrix ← fromOne.assign i' j' dies matrix
  let matrix2 ← fromOne.assign i j dies arrays.matrix2
  let matrix2 ← fromOne.assign i' j' dies matrix2
  return ⟨matrix, matrix2⟩

/-- Initialize boundaries. -/
def Arrays.boundaries (lRows lCols : ℕ) (arrays : Arrays) : Except Fault Arrays := do
  let arrays ← doLoop 1 (lCols + 2) 1 (fun j => Arrays.setDies 1 j (lRows + 2) j) arrays
  doLoop 1 (lRows + 2) 1 (fun i => Arrays.setDies i 1 i (lCols + 2)) arrays

/-- Initialize the matrix: `rand seed j` if the `j`th number after `srand(seed)` is above 0.5. -/
def Arrays.initialise (rand : Int → Int → Bool) (lRows lCols gFirstRow : ℕ) (arrays : Arrays) :
    Except Fault Arrays := do
  let arrays ← arrays.boundaries lRows lCols
  let matrix ← fromOne.fill 1 lRows 1 lCols
    (fun i j => .ok (cell (rand (1000 + (i + gFirstRow - 1)) j))) arrays.matrix
  let matrix ← mlife2dInitEdge lRows lCols matrix
  return ⟨matrix, arrays.matrix2⟩

section Processes

variable {nprocs : ℕ}

/-- What `life` does that matters outside: calculate a generation, and write a checkpoint. -/
inductive Event (nprocs : ℕ) where
  | generation
  | checkpoint (label : Int) (arrays : Fin nprocs → Array2)

/-- The arrays of all processes, and what they have done. -/
structure State (nprocs : ℕ) where
  matrix : Fin nprocs → Array2
  matrix2 : Fin nprocs → Array2
  events : List (Event nprocs)

variable (dims : Dims nprocs) (gRows gCols : ℕ)

/-- `MLIFE_exchange` on all processes. A patch that is not empty gets the current cells of the
mesh in it and around it from the processes that own them, so that its interior stays as it is; so
does its halo beyond the mesh. -/
structure Exchange where
  run : (Fin nprocs → Array2) → Fin nprocs → Array2
  within : ∀ arrays rank owner row col row' col',
    1 ≤ dims.rowsOf gRows rank → 1 ≤ dims.colsOf gCols rank →
    row ≤ dims.rowsOf gRows rank + 1 → col ≤ dims.colsOf gCols rank + 1 →
    Inside (dims.rowsOf gRows owner) (dims.colsOf gCols owner) row' col' →
    dims.rowOffset gRows rank + row = dims.rowOffset gRows owner + row' →
    dims.colOffset gCols rank + col = dims.colOffset gCols owner + col' →
    run arrays rank row col = arrays owner row' col'
  beyond : ∀ arrays rank row col,
    1 ≤ dims.rowsOf gRows rank → 1 ≤ dims.colsOf gCols rank →
    row ≤ dims.rowsOf gRows rank + 1 → col ≤ dims.colsOf gCols rank + 1 →
    ¬ Inside gRows gCols (dims.rowOffset gRows rank + row) (dims.colOffset gCols rank + col) →
    run arrays rank row col = arrays rank row col

variable (exchange : Exchange dims gRows gCols)

/-- The loops that calculate a generation of the patches in `source`, into `target`. -/
def calculate (source target : Fin nprocs → Array2) : Except Fault (Fin nprocs → Array2) :=
  together fun rank => fromOne.fill 2 (dims.rowsOf gRows rank + 1) 2 (dims.colsOf gCols rank + 1)
    (mlifeNextstate (source rank)) (target rank)

variable {dims gRows gCols}

/-- An iteration of the loop of `life`. -/
def State.iteration (k : Int) (state : State nprocs) : Except Fault (State nprocs) := do
  let matrix := exchange.run state.matrix
  let matrix2 ← calculate dims gRows gCols matrix state.matrix2
  let events := state.events ++ [.generation, .checkpoint k matrix2]
  let matrix2 := exchange.run matrix2
  let matrix ← calculate dims gRows gCols matrix2 matrix
  return ⟨matrix, matrix2, events ++ [.generation, .checkpoint (k + 1) matrix]⟩

variable (dims gRows gCols)

/-- The arrays of all processes before the first checkpoint. -/
def initialArrays (rand : Int → Int → Bool) (arrays : Fin nprocs → Arrays) :
    Except Fault (Fin nprocs → Arrays) :=
  together fun rank => (arrays rank).initialise rand (dims.rowsOf gRows rank)
    (dims.colsOf gCols rank) (dims.meshDecomp gRows gCols rank).gFirstRow

variable {dims gRows gCols}

/-- `life` from the first checkpoint on. -/
def lifeFrom (ntimes : ℕ) (arrays : Fin nprocs → Arrays) : Except Fault (State nprocs) :=
  let matrix := fun rank => (arrays rank).matrix
  doLoop 1 ntimes 2 (State.iteration exchange)
    ⟨matrix, fun rank => (arrays rank).matrix2, [.checkpoint 0 matrix]⟩

/-- `life` -/
def life (ntimes : ℕ) (rand : Int → Int → Bool) (arrays : Fin nprocs → Arrays) :
    Except Fault (State nprocs) :=
  (initialArrays dims gRows gCols rand arrays).bind (lifeFrom exchange ntimes)

end Processes

end HandsOn.Life.Fortran
