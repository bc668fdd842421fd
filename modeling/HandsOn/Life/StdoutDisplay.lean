import HandsOn.Life.MeshLife

/-!
# The display of the mesh, row by row

`life` of `mlife2d.c` with the point-to-point exchange and the `MLIFEIO_Checkpoint` of
`mlife2d-io-stdout1.c`. In each iteration every rank sends its rows to rank 0, which
receives from any source with the number of the row as the tag and counts the messages. Only
the exchange synchronises the ranks. Messages with one tag from one rank are received in
the order sent; a send completes before it is received or waits, which is no step here.
The buffers of 256 hold a row if `gCols ≤ 254`.
-/

namespace HandsOn.Life.StdoutDisplay

open HandsOn.Mpi HandsOn.Semantics

variable {nprocs : ℕ}

/-- The contents of a message: `buf[0]`, and the `buf[1]` cells after it. -/
structure Buf where
  firstCol : ℕ
  cells : List Int
deriving DecidableEq

/-- The row that rank 0 assembles, and the ranks that have contributed; `np` is their
number. -/
structure Line (nprocs : ℕ) where
  cbuf : ℕ → Char
  sources : List (Fin nprocs)

/-- A line printed for a row in an iteration. -/
structure Printed (nprocs : ℕ) where
  iter : ℕ
  row : ℕ
  text : List Char
  sources : List (Fin nprocs)
deriving DecidableEq

/-- The exchange, the checkpoints each rank has left, the rows it has sent in the current
one, the messages under way to rank 0 by source and tag, and the loops of rank 0. -/
structure State (nprocs : ℕ) where
  exchange : PointToPoint.State (Fin nprocs) Addr Int
  iter : Fin nprocs → ℕ
  sentRows : Fin nprocs → ℕ
  channel : Fin nprocs → ℕ → List Buf
  row : ℕ
  line : Option (Line nprocs)
  printed : List (Printed nprocs)

/-- The next step of the exchange, or of a rank in its checkpoint. -/
inductive Action (nprocs : ℕ) where
  | exchange (action : PointToPoint.Action (Fin nprocs))
  | send (rank : Fin nprocs)
  | beginRow
  | receive (source : Fin nprocs)
  | printRow
  | leave (rank : Fin nprocs)

/-- `cell ? '*' : ' '` -/
def mark (cell : Int) : Char := if cell ≠ 0 then '*' else ' '

/-- Put a contribution into the line. -/
def Line.add (line : Line nprocs) (source : Fin nprocs) (buf : Buf) : Line nprocs where
  cbuf := forLoop 0 buf.cells.length (fun i cbuf =>
    Function.update cbuf (buf.firstCol - 1 + i) (mark (buf.cells.getD i 0))) line.cbuf
  sources := line.sources ++ [source]

/-- The rank whose call an action of the exchange is. -/
def caller : PointToPoint.Action (Fin nprocs) → Option (Fin nprocs)
  | .call rank | .waitall rank => some rank
  | .read .. | .store .. => none

/-- `rank` has finished an iteration and not its checkpoint. -/
def State.InCheckpoint (state : State nprocs) (rank : Fin nprocs) : Prop :=
  state.exchange.phase rank = 2 * (state.iter rank + 1)

instance (state : State nprocs) (rank : Fin nprocs) : Decidable (state.InCheckpoint rank) :=
  inferInstanceAs (Decidable (_ = _))

section Machine

variable (dims : Dims nprocs) (root : Fin nprocs) (gRows gCols ntimes : ℕ)

/-- A rank contributes to the rows of its patch. -/
def Owns (rank : Fin nprocs) (row : ℕ) : Prop :=
  let patch := dims.meshDecomp gRows gCols rank
  patch.gFirstRow ≤ row ∧ row < patch.gFirstRow + patch.lRows

instance (rank : Fin nprocs) (row : ℕ) : Decidable (Owns dims gRows gCols rank row) :=
  inferInstanceAs (Decidable (_ ∧ _))

/-- What a rank contributes from row `i` of its `matrix`. -/
def rowBuf (state : State nprocs) (rank : Fin nprocs) (i : ℕ) : Buf :=
  let patch := dims.meshDecomp gRows gCols rank
  { firstCol := patch.gFirstCol
    cells := (List.range patch.lCols).map fun j =>
      view patch.lCols (matrixAt (state.iter rank + 1)) (state.exchange.mem rank) i (j + 1) }

/-- Clear `cbuf`, and let rank 0 contribute. -/
def ownLine (state : State nprocs) : Line nprocs :=
  let cleared : Line nprocs := ⟨fun _ => ' ', []⟩
  let patch := dims.meshDecomp gRows gCols root
  if Owns dims gRows gCols root state.row then
    cleared.add root (rowBuf dims gRows gCols state root (state.row - patch.gFirstRow + 1))
  else cleared

/-- `MPI_Send` of the next row of a rank. -/
def State.send (state : State nprocs) (rank : Fin nprocs) : State nprocs :=
  let i := state.sentRows rank + 1
  let row := i + (dims.meshDecomp gRows gCols rank).gFirstRow - 1
  let buf := rowBuf dims gRows gCols state rank i
  { state with
    sentRows := Function.update state.sentRows rank i
    channel := fun source tag =>
      if source = rank ∧ tag = row then state.channel source tag ++ [buf]
      else state.channel source tag }

/-- `MPI_Recv` of the first message from `source` with the tag of the row. -/
def State.receive (state : State nprocs) (line : Line nprocs) (source : Fin nprocs) (buf : Buf)
    (rest : List Buf) : State nprocs :=
  { state with
    channel := fun source' tag =>
      if source' = source ∧ tag = state.row then rest else state.channel source' tag
    line := some (line.add source buf) }

def State.print (state : State nprocs) (line : Line nprocs) : State nprocs :=
  { state with
    row := state.row + 1
    line := none
    printed := state.printed ++ [
      { iter := state.iter root
        row := state.row
        text := (List.range gCols).map line.cbuf
        sources := line.sources }] }

/-- `MLIFEIO_Checkpoint` returns on a rank. -/
def State.leave (state : State nprocs) (rank : Fin nprocs) : State nprocs :=
  { state with
    iter := Function.update state.iter rank (state.iter rank + 1)
    sentRows := Function.update state.sentRows rank 0
    row := if rank = root then 1 else state.row }

/-- One step; `none` where it is not enabled. -/
def step (state : State nprocs) : Action nprocs → Option (State nprocs)
  | .exchange action =>
      if ∃ rank ∈ caller action, state.InCheckpoint rank then none
      else (PointToPoint.step (dims.pt2pt gRows gCols ntimes) state.exchange action).map
        fun exchange => { state with exchange }
  | .send rank =>
      if rank ≠ root ∧ state.InCheckpoint rank ∧
          state.sentRows rank < (dims.meshDecomp gRows gCols rank).lRows then
        some (state.send dims gRows gCols rank)
      else none
  | .beginRow =>
      if state.InCheckpoint root ∧ state.line.isNone ∧ state.row ≤ gRows then
        some { state with line := some (ownLine dims root gRows gCols state) }
      else none
  | .receive source =>
      state.line.bind fun line =>
        if line.sources.length < dims.pcols then
          match state.channel source state.row with
          | [] => none
          | buf :: rest => some (state.receive line source buf rest)
        else none
  | .printRow =>
      state.line.bind fun line =>
        if line.sources.length < dims.pcols then none else some (state.print root gCols line)
  | .leave rank =>
      if state.InCheckpoint rank ∧
          (if rank = root then state.line.isNone ∧ ¬ state.row ≤ gRows
            else state.sentRows rank = (dims.meshDecomp gRows gCols rank).lRows) then
        some (state.leave root rank)
      else none

/-- The state before the first call. -/
def start (mem : Fin nprocs → Mem) : State nprocs where
  exchange := PointToPoint.start (dims.pt2pt gRows gCols ntimes) mem
  iter _ := 0
  sentRows _ := 0
  channel _ _ := []
  row := 1
  line := none
  printed := []

/-- Runs from a grid. -/
def system (grid : Grid) : System (State nprocs) (Action nprocs) :=
  .computed (fun state => ∃ mem, dims.InitialPatches gRows gCols grid mem ∧
    state = start dims gRows gCols ntimes mem) (step dims root gRows gCols ntimes)

end Machine

/-- The line shows its row after its iteration, from one contribution of each owner. -/
structure Right (dims : Dims nprocs) (gRows gCols : ℕ) (grid : Grid) (printed : Printed nprocs) :
    Prop where
  text : printed.text = (List.range gCols).map fun col =>
    mark (cell (grid.generation gRows gCols (printed.iter + 1) printed.row (col + 1)))
  once : printed.sources.Nodup
  owners : ∀ rank, rank ∈ printed.sources ↔ Owns dims gRows gCols rank printed.row

/-- The ranks that have contributed to the row that rank 0 is at. -/
def State.sources (state : State nprocs) : List (Fin nprocs) :=
  state.line.elim [] Line.sources

/-- A receive does not match a rank that has contributed to the row already. -/
def FirstMatch (transition : Transition (State nprocs) (Action nprocs)) : Prop :=
  match transition.action with
  | .receive source => source ∉ transition.before.sources
  | _ => True

instance : DecidablePred (@FirstMatch nprocs)
  | ⟨before, .receive source, _⟩ => inferInstanceAs (Decidable (source ∉ before.sources))
  | ⟨_, .exchange _, _⟩ | ⟨_, .send _, _⟩ | ⟨_, .beginRow, _⟩ | ⟨_, .printRow, _⟩
  | ⟨_, .leave _, _⟩ => .isTrue trivial

end HandsOn.Life.StdoutDisplay
