import HandsOn.Life.Checkpoint
import HandsOn.Life.RowBlockLife

/-!
# The display of row blocks, rank by rank

`life` of `mlife.c` with any of its exchanges and the `MLIFEIO_Checkpoint` of
`mlife-io-stdout.c`. In each iteration every rank but rank 0 sends its rows to rank 0 in one
message, which rank 0 receives and prints in the order of the ranks, after its own. The
messages carry no iteration; those of one rank are received in the order sent. A send may
complete before it is received.
-/

namespace HandsOn.Life

open HandsOn.Mpi HandsOn.Semantics

/-- An exchange as the display sees it: its steps, the iterations that each rank has calculated,
its memory, and the rank whose call returns in a step. -/
structure Exchanging (nprocs : ℕ) where
  State : Type
  Action : Type
  Initial : State → Prop
  step : State → Action → Option State
  phase : State → Fin nprocs → ℕ
  mem : State → Fin nprocs → Mem
  caller : Action → Option (Fin nprocs)

/-- The runs of an exchange. -/
def Exchanging.system {nprocs : ℕ} (exchanging : Exchanging nprocs) :
    System exchanging.State exchanging.Action :=
  .computed exchanging.Initial exchanging.step

/-- The implementations of `MLIFE_exchange`. -/
def RowExchange.exchanging (exchange : RowExchange) (nprocs rows cols ntimes : ℕ) (grid : Grid) :
    Exchanging nprocs :=
  match exchange with
  | .pt2pt =>
      { State := PointToPoint.State (Fin nprocs) Addr Int
        Action := PointToPoint.Action (Fin nprocs)
        Initial :=
          ((Life.pt2pt nprocs rows cols ntimes).system (InitialRows rows cols grid)).Initial
        step := PointToPoint.step (Life.pt2pt nprocs rows cols ntimes)
        phase := PointToPoint.State.phase
        mem := PointToPoint.State.mem
        caller := PointToPoint.Action.caller }
  | .fence =>
      { State := OneSided.State Buffer (Fin nprocs) Addr Int
        Action := OneSided.Action Buffer (Fin nprocs)
        Initial :=
          ((Life.fence nprocs rows cols ntimes).system (InitialRows rows cols grid)).Initial
        step := OneSided.step (Life.fence nprocs rows cols ntimes)
        phase := OneSided.State.phase
        mem := OneSided.State.mem
        caller := OneSided.Action.caller }
  | .pscw =>
      { State := OneSided.State Buffer (Fin nprocs) Addr Int
        Action := OneSided.Action Buffer (Fin nprocs)
        Initial := ((Life.pscw nprocs rows cols ntimes).system (InitialRows rows cols grid)).Initial
        step := OneSided.step (Life.pscw nprocs rows cols ntimes)
        phase := OneSided.State.phase
        mem := OneSided.State.mem
        caller := OneSided.Action.caller }

namespace RowDisplay

variable {nprocs : ℕ}

/-- The ints of a message, and the iteration of its sender, which it does not carry. -/
structure Message where
  iter : ℕ
  ints : List Int
deriving DecidableEq

/-- A call of `printf` for the title of an iteration, or of `MLIFEIO_Row_print`. -/
inductive Output where
  | iteration (iter : ℕ)
  | row (rownr : ℕ) (text : List Char)
deriving DecidableEq

/-- A receive of rank 0 in an iteration: the source, the count, and the message it matches. -/
structure Receipt (nprocs : ℕ) where
  iter : ℕ
  source : Fin nprocs
  count : ℕ
  message : Message
deriving DecidableEq

/-- Where rank 0 is in its checkpoint, with the values of the variables it goes on with. -/
inductive Place where
  | start
  | own (i : ℕ)
  | next (i totrows : ℕ)
  | rows (i totrows j : ℕ) (data : ℕ → Int)

/-- The loop over the other ranks has ended. -/
def Place.finished (nprocs : ℕ) : Place → Bool
  | .next i _ => decide (nprocs ≤ i)
  | _ => false

/-- The exchange, the checkpoints each rank has left, whether it has sent its rows in the current
one, the messages under way to rank 0 by their source, the place of rank 0, and what it has
printed and received. -/
structure State (exchanging : Exchanging nprocs) where
  exchange : exchanging.State
  iter : Fin nprocs → ℕ
  sent : Fin nprocs → Bool
  channel : Fin nprocs → List Message
  place : Place
  output : List Output
  receipts : List (Receipt nprocs)

/-- The next step of the exchange, or of a rank in its checkpoint; `advance` is one of rank 0 that
receives nothing. -/
inductive Action (exchanging : Exchanging nprocs) where
  | exchange (action : exchanging.Action)
  | send (rank : Fin nprocs)
  | advance
  | receive (source : Fin nprocs)
  | leave (rank : Fin nprocs)

/-- `MLIFEIO_Row_print` -/
def rowPrint (data : ℕ → Int) (cols rownr : ℕ) : Output :=
  .row rownr ((List.range cols).map fun i => if data i = born then '*' else ' ')

/-- The ints that a datatype selects of an allocation that begins at `matrix`. -/
def select (type : Datatype) (matrix : Int) (ints : ℕ → Int) : List Int :=
  type.typemap.map fun element => ints ((element.1 - matrix) / 4).toNat

section Machine

variable (exchanging : Exchanging nprocs) (root : Fin nprocs) (rows cols : ℕ)
  (matrix : Fin nprocs → Buffer → Int) (fresh : ℕ → Int)

variable {exchanging} in
/-- `rank` has finished an iteration and not its checkpoint. -/
def State.InCheckpoint (state : State exchanging) (rank : Fin nprocs) : Prop :=
  exchanging.phase state.exchange rank = state.iter rank + 1

instance (state : State exchanging) (rank : Fin nprocs) : Decidable (state.InCheckpoint rank) :=
  inferInstanceAs (Decidable (_ = _))

variable {exchanging} in
/-- What a rank sends: its block of rows in a derived datatype, from `MPI_BOTTOM`. -/
def State.message (state : State exchanging) (rank : Fin nprocs) : Message :=
  let buffer := matrixAt (state.iter rank + 1)
  { iter := state.iter rank
    ints := select (typeCreateRowblk (matrix rank buffer) (rowsOf rows rank) cols)
      (matrix rank buffer) fun i => exchanging.mem state.exchange rank (buffer, i) }

variable {exchanging} in
/-- `MPI_Send` on a rank. -/
def State.send (state : State exchanging) (rank : Fin nprocs) : State exchanging :=
  { state with
    sent := Function.update state.sent rank true
    channel := Function.update state.channel rank
      (state.channel rank ++ [state.message rows cols matrix rank]) }

variable {exchanging} in
/-- Rank 0 prints the next row that it has, or goes on to the next rank. -/
def State.advance (state : State exchanging) : Option (Option Output × Place) :=
  match state.place with
  | .start => some (some (.iteration (state.iter root)), .own 1)
  | .own i =>
      if i < rowsOf rows root + 1 then
        let data := fun j =>
          exchanging.mem state.exchange root (matrixAt (state.iter root + 1), offset cols i 1 + j)
        some (some (rowPrint data cols i), .own (i + 1))
      else some (none, .next 1 (rowsOf rows root))
  | .next _ _ => none
  | .rows i totrows j data =>
      let procrows := myrows rows i nprocs
      if j < procrows then
        some (some (rowPrint (fun k => data (j * cols + k)) cols (totrows + j + 1)),
          .rows i totrows (j + 1) data)
      else some (none, .next (i + 1) (totrows + procrows))

variable {exchanging} in
/-- `MPI_Recv` of the first message from `source`, into the memory that `malloc` has returned. -/
def State.receive (state : State exchanging) (source : Fin nprocs) (totrows : ℕ)
    (message : Message) (rest : List Message) : State exchanging :=
  { state with
    channel := Function.update state.channel source rest
    place := .rows source totrows 0 fun k => message.ints.getD k (fresh k)
    receipts := state.receipts ++
      [⟨state.iter root, source, myrows rows source nprocs * cols, message⟩] }

variable {exchanging} in
/-- `MLIFEIO_Checkpoint` returns on a rank. -/
def State.leave (state : State exchanging) (rank : Fin nprocs) : State exchanging :=
  { state with
    iter := Function.update state.iter rank (state.iter rank + 1)
    sent := Function.update state.sent rank false
    place := if rank = root then .start else state.place }

/-- One step; `none` where it is not enabled. A message longer than the count is an error. -/
def step (state : State exchanging) : Action exchanging → Option (State exchanging)
  | .exchange action =>
      if (exchanging.caller action).any fun rank => decide (state.InCheckpoint rank) then none
      else (exchanging.step state.exchange action).map fun exchange => { state with exchange }
  | .send rank =>
      if rank ≠ root ∧ state.InCheckpoint rank ∧ state.sent rank = false then
        some (state.send rows cols matrix rank)
      else none
  | .advance =>
      if state.InCheckpoint root then
        (state.advance root rows cols).map fun printed =>
          { state with place := printed.2, output := state.output ++ printed.1.toList }
      else none
  | .receive source =>
      match state.place, state.channel source with
      | .next i totrows, message :: rest =>
          if state.InCheckpoint root ∧ i = source ∧
              message.ints.length ≤ myrows rows source nprocs * cols then
            some (state.receive root rows cols fresh source totrows message rest)
          else none
      | _, _ => none
  | .leave rank =>
      if state.InCheckpoint rank ∧
          (if rank = root then state.place.finished nprocs else state.sent rank) = true then
        some (state.leave root rank)
      else none

/-- The state before the first call. -/
def start (exchange : exchanging.State) : State exchanging where
  exchange := exchange
  iter _ := 0
  sent _ := false
  channel _ := []
  place := .start
  output := []
  receipts := []

/-- The runs of all ranks. -/
def system : System (State exchanging) (Action exchanging) :=
  .computed (fun state => ∃ exchange, exchanging.Initial exchange ∧
    state = start exchanging exchange) (step exchanging root rows cols matrix fresh)

end Machine

/-- What the checkpoint of an iteration shows: the title, and each row of the generation that
the iteration has calculated. -/
def page (rows cols : ℕ) (grid : Grid) (iter : ℕ) : List Output :=
  .iteration iter :: (List.range' 1 rows).map fun row =>
    .row row ((List.range' 1 cols).map fun col =>
      if grid.generation rows cols (iter + 1) row col then '*' else ' ')

/-- The pages of the first iterations. -/
def pages (rows cols : ℕ) (grid : Grid) (count : ℕ) : List Output :=
  (List.range count).flatMap (page rows cols grid)

end RowDisplay

end HandsOn.Life
