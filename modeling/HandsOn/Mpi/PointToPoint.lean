import Mathlib.Data.Fintype.EquivFin
import Mathlib.Data.Fintype.Lattice
import Mathlib.Data.List.Infix
import HandsOn.Mpi.Exchange

/-!
# Nonblocking point-to-point communication

Each rank runs phases of `MPI_Isend` and `MPI_Irecv` calls, each phase ended by
`MPI_Waitall`. Messages between two ranks are non-overtaking: the `n`-th send
from one rank to another matches the `n`-th receive posted there for it. Between
its call and the end of the phase, a send buffer may be read at any time and
element by element, and a receive buffer stored to likewise. `MPI_Waitall`
returns when the rank's send buffers have been read and its receive buffers
filled.

`Program.simulation` shows that a program whose sends and receives agree phase
by phase is an `Exchange`.
-/

namespace HandsOn.Mpi.PointToPoint

open HandsOn.Semantics

universe u v w

/-- A nonblocking call. A buffer is the addresses of its elements in typemap
order; the peer `none` is `MPI_PROC_NULL`. -/
inductive Call (Rank : Type u) (Addr : Type v) where
  | isend (buf : List Addr) (dest : Option Rank)
  | irecv (buf : List Addr) (source : Option Rank)

/-- The calls of each phase of each rank, in program order, and the local
computation after the phase's `MPI_Waitall`. -/
structure Program (Rank : Type u) (Addr : Type v) (Val : Type w) where
  phases : ℕ
  calls : ℕ → Rank → List (Call Rank Addr)
  update : ℕ → Rank → (Addr → Val) → Addr → Val

/-- The calls of a phase; none after the last. -/
def Program.callsAt {Rank : Type u} {Addr : Type v} {Val : Type w}
    (program : Program Rank Addr Val) (phase : ℕ) (rank : Rank) : List (Call Rank Addr) :=
  if phase < program.phases then program.calls phase rank else []

/-- Each rank's phase, calls still to make in it and memory, the buffers of the
sends and receives posted so far, and the progress of the elements of the `n`-th
message from a source to a destination. -/
structure State (Rank : Type u) (Addr : Type v) (Val : Type w) where
  phase : Rank → ℕ
  todo : Rank → List (Call Rank Addr)
  mem : Rank → Addr → Val
  sent : Rank → Rank → List (List Addr)
  posted : Rank → Rank → List (List Addr)
  status : Rank → Rank → ℕ → ℕ → Status Val

/-- The next step of a rank, or of an element of a message. -/
inductive Action (Rank : Type u) where
  | call (rank : Rank)
  | read (source dest : Rank) (message index : ℕ)
  | store (source dest : Rank) (message index : ℕ)
  | waitall (rank : Rank)

/-- The rank whose call returns. -/
def Action.caller {Rank : Type u} : Action Rank → Option Rank
  | .call rank | .waitall rank => some rank
  | .read .. | .store .. => none

variable {Rank : Type u} {Addr : Type v} {Val : Type w} [DecidableEq Rank]

/-- The send buffers for `dest` among `calls`. -/
def sendsTo (calls : List (Call Rank Addr)) (dest : Rank) : List (List Addr) :=
  calls.filterMap fun
    | .isend buf (some peer) => if peer = dest then some buf else none
    | _ => none

/-- The receive buffers for `source` among `calls`. -/
def recvsFrom (calls : List (Call Rank Addr)) (source : Rank) : List (List Addr) :=
  calls.filterMap fun
    | .irecv buf (some peer) => if peer = source then some buf else none
    | _ => none

section Calls

variable (buf : List Addr) (peer : Option Rank) (rest : List (Call Rank Addr)) (rank : Rank)

@[simp, grind =] theorem sendsTo_nil : sendsTo ([] : List (Call Rank Addr)) rank = [] := rfl

@[simp, grind =] theorem recvsFrom_nil : recvsFrom ([] : List (Call Rank Addr)) rank = [] := rfl

@[simp, grind =] theorem sendsTo_isend : sendsTo (.isend buf peer :: rest) rank =
    (if peer = some rank then [buf] else []) ++ sendsTo rest rank := by
  cases peer <;> simp only [sendsTo, List.filterMap_cons, Option.some.injEq] <;> grind

@[simp, grind =] theorem sendsTo_irecv :
    sendsTo (.irecv buf peer :: rest) rank = sendsTo rest rank := by
  simp [sendsTo]

@[simp, grind =] theorem recvsFrom_isend :
    recvsFrom (.isend buf peer :: rest) rank = recvsFrom rest rank := by
  simp [recvsFrom]

@[simp, grind =] theorem recvsFrom_irecv : recvsFrom (.irecv buf peer :: rest) rank =
    (if peer = some rank then [buf] else []) ++ recvsFrom rest rank := by
  cases peer <;> simp only [recvsFrom, List.filterMap_cons, Option.some.injEq] <;> grind

end Calls

/-- Add a buffer to those posted between two ranks. -/
def post (table : Rank → Rank → List (List Addr)) (source dest : Rank) (buf : List Addr) :
    Rank → Rank → List (List Addr) :=
  fun source' dest' =>
    if source' = source ∧ dest' = dest then table source' dest' ++ [buf] else table source' dest'

namespace State

/-- One call returns; the transfers it allows happen later. -/
def call (state : State Rank Addr Val) (rank : Rank) :
    Call Rank Addr → State Rank Addr Val
  | .isend buf (some dest) => { state with sent := post state.sent rank dest buf }
  | .irecv buf (some source) => { state with posted := post state.posted source rank buf }
  | .isend _ none | .irecv _ none => state

def setTodo (state : State Rank Addr Val) (rank : Rank) (todo : List (Call Rank Addr)) :
    State Rank Addr Val :=
  { state with todo := Function.update state.todo rank todo }

def setStatus (state : State Rank Addr Val) (source dest : Rank) (message index : ℕ)
    (status : Status Val) : State Rank Addr Val :=
  { state with
    status := fun source' dest' message' index' =>
      if source' = source ∧ dest' = dest ∧ message' = message ∧ index' = index then status
      else state.status source' dest' message' index' }

/-- `rank` updates its memory and enters its next phase. -/
def advance (state : State Rank Addr Val) (rank : Rank) (todo : List (Call Rank Addr))
    (mem : Addr → Val) : State Rank Addr Val :=
  { state with
    phase := Function.update state.phase rank (state.phase rank + 1)
    todo := Function.update state.todo rank todo
    mem := Function.update state.mem rank mem }

/-- Every element of the messages `rank` has sent has been read. -/
def Read (state : State Rank Addr Val) (rank : Rank) : Prop :=
  ∀ dest, ∀ message < (state.sent rank dest).length,
    ∀ index < ((state.sent rank dest).getD message []).length,
      (state.status rank dest message index).isUnread = false

/-- Every element of the receives `rank` has posted has been stored. -/
def Stored (state : State Rank Addr Val) (rank : Rank) : Prop :=
  ∀ source, ∀ message < (state.posted source rank).length,
    ∀ index < ((state.posted source rank).getD message []).length,
      (state.status source rank message index).isStored = true

instance [Fintype Rank] (state : State Rank Addr Val) (rank : Rank) :
    Decidable (state.Read rank) :=
  inferInstanceAs (Decidable (∀ _, ∀ message < _, ∀ index < _, _ = false))

instance [Fintype Rank] (state : State Rank Addr Val) (rank : Rank) :
    Decidable (state.Stored rank) :=
  inferInstanceAs (Decidable (∀ _, ∀ message < _, ∀ index < _, _ = true))

end State

section Machine

variable [Fintype Rank] [DecidableEq Addr]

/-- One step; `none` where it is not enabled. -/
def step (program : Program Rank Addr Val) (state : State Rank Addr Val) :
    Action Rank → Option (State Rank Addr Val)
  | .call rank =>
      match state.todo rank with
      | [] => none
      | next :: rest => some ((state.call rank next).setTodo rank rest)
  | .read source dest message index =>
      ((state.sent source dest)[message]?).bind fun buf => buf[index]?.bind fun address =>
        if (state.status source dest message index).isUnread then
          some (state.setStatus source dest message index
            (.flying (state.mem source address)))
        else none
  | .store source dest message index =>
      ((state.posted source dest)[message]?).bind fun buf => buf[index]?.bind fun address =>
        match state.status source dest message index with
        | .flying value =>
            some { state.setStatus source dest message index .stored with
                   mem := Function.update state.mem dest
                     (Function.update (state.mem dest) address value) }
        | _ => none
  | .waitall rank =>
      if state.phase rank < program.phases ∧ (state.todo rank).isEmpty ∧ state.Read rank ∧
          state.Stored rank then
        some (state.advance rank (program.callsAt (state.phase rank + 1) rank)
          (program.update (state.phase rank) rank (state.mem rank)))
      else none

/-- The state before the first call. -/
def start (program : Program Rank Addr Val) (mem : Rank → Addr → Val) :
    State Rank Addr Val where
  phase _ := 0
  todo rank := program.callsAt 0 rank
  mem := mem
  sent _ _ := []
  posted _ _ := []
  status _ _ _ _ := .unread

/-- Runs of the program from initial memories that satisfy `Memory`. -/
def Program.system (program : Program Rank Addr Val) (Memory : (Rank → Addr → Val) → Prop) :
    System (State Rank Addr Val) (Action Rank) :=
  .computed (fun state => ∃ mem, Memory mem ∧ state = start program mem) (step program)

/-- `rank` may be in phase `phase` with memory `mem`. -/
def Program.Reaches (program : Program Rank Addr Val) (Memory : (Rank → Addr → Val) → Prop)
    (rank : Rank) (phase : ℕ) (mem : Addr → Val) : Prop :=
  ∃ state, (program.system Memory).Reachable state ∧ state.phase rank = phase ∧
    state.mem rank = mem

/-- The `MPI_Waitall` of `rank` in phase `phase` may return with memory `mem`. -/
def Program.Completes (program : Program Rank Addr Val) (Memory : (Rank → Addr → Val) → Prop)
    (rank : Rank) (phase : ℕ) (mem : Addr → Val) : Prop :=
  ∃ state next, (program.system Memory).Reachable state ∧ state.phase rank = phase ∧
    state.mem rank = mem ∧ step program state (.waitall rank) = some next

/-- Some rank has phases left. -/
def Program.Unfinished (program : Program Rank Addr Val) (state : State Rank Addr Val) : Prop :=
  ∃ rank, state.phase rank < program.phases

end Machine

/-! ### Matching sends and receives by phase -/

/-- The blocks of the phases before `count`, in order. -/
def history {Block : Type u} (blocks : ℕ → List Block) : ℕ → List Block
  | 0 => []
  | count + 1 => history blocks count ++ blocks count

section History

variable {Block : Type u} {blocks : ℕ → List Block}

theorem history_mono {first last : ℕ} (ordered : first ≤ last) :
    history blocks first <+: history blocks last := by
  induction last, ordered using Nat.le_induction with
  | base => exact List.prefix_refl _
  | succ last _ ih => exact ih.trans (List.prefix_append _ _)

/-- The block of an earlier phase is found at the number of blocks before it. -/
theorem history_getElem? {phase count : ℕ} {block : Block} (single : blocks phase = [block])
    (earlier : phase < count) :
    (history blocks count)[(history blocks phase).length]? = some block := by
  have found : (history blocks (phase + 1))[(history blocks phase).length]? = some block := by
    simp [history, single]
  obtain ⟨rest, same⟩ : history blocks (phase + 1) <+: history blocks count :=
    history_mono earlier
  rw [← same, List.getElem?_append_left (List.getElem?_eq_some_iff.mp found).1, found]

theorem exists_of_history_getElem? (single : ∀ phase, (blocks phase).length ≤ 1)
    {count number : ℕ} {block : Block} (found : (history blocks count)[number]? = some block) :
    ∃ phase < count, blocks phase = [block] ∧ (history blocks phase).length = number := by
  induction count with
  | zero => simp [history] at found
  | succ count ih =>
      rw [history, List.getElem?_append] at found
      split at found
      · obtain ⟨phase, earlier, rest⟩ := ih found
        exact ⟨phase, Nat.lt_succ_of_lt earlier, rest⟩
      · refine ⟨count, Nat.lt_succ_self _, ?_⟩
        have short := single count
        have inside := (List.getElem?_eq_some_iff.mp found).1
        obtain ⟨only, same⟩ := List.length_eq_one_iff.mp (show (blocks count).length = 1 by omega)
        rw [same] at found inside
        obtain rfl : number = (history blocks count).length := by
          simp only [List.length_singleton] at inside
          omega
        simp_all

/-- Phases with a block are numbered injectively. -/
theorem history_length_inj {first second : ℕ} (left : blocks first ≠ [])
    (right : blocks second ≠ [])
    (same : (history blocks first).length = (history blocks second).length) :
    first = second := by
  have apart : ∀ {early late : ℕ}, blocks early ≠ [] → early < late →
      (history blocks early).length < (history blocks late).length := by
    intro early late present ordered
    have longer : (history blocks (early + 1)).length ≤ (history blocks late).length :=
      (history_mono ordered).length_le
    have positive := List.length_pos_iff.mpr present
    rw [history, List.length_append] at longer
    omega
  rcases Nat.lt_trichotomy first second with earlier | equal | later
  · exact absurd same (apart left earlier).ne
  · exact equal
  · exact absurd same (apart right later).ne'

end History

namespace Program

variable (program : Program Rank Addr Val)

/-- The buffers `source` sends to `dest` in a phase. -/
def sends (source dest : Rank) (phase : ℕ) : List (List Addr) :=
  sendsTo (program.callsAt phase source) dest

/-- The buffers `dest` receives into from `source` in a phase. -/
def recvs (source dest : Rank) (phase : ℕ) : List (List Addr) :=
  recvsFrom (program.callsAt phase dest) source

/-- The number of the message of a phase among those from `source` to `dest`. -/
def number (source dest : Rank) (phase : ℕ) : ℕ :=
  (history (program.sends source dest) phase).length

/-- In each phase, two ranks exchange at most one message each way, and its two
buffers have the same length. -/
def Matched : Prop :=
  ∀ source dest phase,
    (program.sends source dest phase = [] ∧ program.recvs source dest phase = []) ∨
    ∃ sendBuf recvBuf, program.sends source dest phase = [sendBuf] ∧
      program.recvs source dest phase = [recvBuf] ∧ sendBuf.length = recvBuf.length

/-- The element transfers of a program whose messages match. -/
def exchange : Exchange Rank Addr Val where
  transfers phase source dest :=
    (program.sends source dest phase).flatten.zip (program.recvs source dest phase).flatten
  update := program.update

/-- A state of a program corresponds to one of its exchange: the messages posted
so far and still to post are those of the phases up to the current one. -/
structure Related (state : State Rank Addr Val) (image : Exchange.State Rank Addr Val) :
    Prop where
  phase : image.phase = state.phase
  mem : image.mem = state.mem
  sent : ∀ source dest, state.sent source dest ++ sendsTo (state.todo source) dest =
    history (program.sends source dest) (state.phase source + 1)
  posted : ∀ source dest, state.posted source dest ++ recvsFrom (state.todo dest) source =
    history (program.recvs source dest) (state.phase dest + 1)
  status : ∀ phase source dest index, program.sends source dest phase ≠ [] →
    image.status phase source dest index =
      state.status source dest (program.number source dest phase) index

variable {program}

/-- Receives are numbered like the sends. -/
theorem Matched.number_eq (matched : program.Matched) (source dest : Rank) (phase : ℕ) :
    (history (program.recvs source dest) phase).length = program.number source dest phase := by
  unfold number
  induction phase with
  | zero => rfl
  | succ phase ih =>
      rcases matched source dest phase with ⟨sends, recvs⟩ | ⟨_, _, sends, recvs, _⟩ <;>
        simp [history, ih, sends, recvs]

theorem Matched.transfers_eq (matched : program.Matched) {source dest : Rank} {phase : ℕ}
    {sendBuf : List Addr} (sends : program.sends source dest phase = [sendBuf]) :
    ∃ recvBuf, program.recvs source dest phase = [recvBuf] ∧
      sendBuf.length = recvBuf.length ∧
      program.exchange.transfers phase source dest = sendBuf.zip recvBuf := by
  rcases matched source dest phase with ⟨none, _⟩ | ⟨_, recvBuf, same, recvs, lengths⟩
  · simp [none] at sends
  · obtain rfl : _ = sendBuf := by simpa [same] using sends
    exact ⟨recvBuf, recvs, lengths, by simp [exchange, same, recvs]⟩

/-- A message sent so far belongs to a phase. -/
theorem Related.phase_of_sent {state : State Rank Addr Val}
    {image : Exchange.State Rank Addr Val} (related : program.Related state image)
    (matched : program.Matched) {source dest : Rank} {message : ℕ} {buf : List Addr}
    (found : (state.sent source dest)[message]? = some buf) :
    ∃ phase ≤ state.phase source, program.sends source dest phase = [buf] ∧
      program.number source dest phase = message := by
  have within : (history (program.sends source dest) (state.phase source + 1))[message]? =
      some buf := by
    rw [← related.sent, List.getElem?_append_left (List.getElem?_eq_some_iff.mp found).1, found]
  obtain ⟨phase, earlier, rest⟩ := exists_of_history_getElem? (fun phase => by
    rcases matched source dest phase with ⟨sends, _⟩ | ⟨_, _, sends, _⟩ <;> simp [sends]) within
  exact ⟨phase, Nat.le_of_lt_succ earlier, rest⟩

/-- A receive posted so far belongs to a phase. -/
theorem Related.phase_of_posted {state : State Rank Addr Val}
    {image : Exchange.State Rank Addr Val} (related : program.Related state image)
    (matched : program.Matched) {source dest : Rank} {message : ℕ} {buf : List Addr}
    (found : (state.posted source dest)[message]? = some buf) :
    ∃ phase ≤ state.phase dest, program.recvs source dest phase = [buf] ∧
      program.number source dest phase = message := by
  have within : (history (program.recvs source dest) (state.phase dest + 1))[message]? =
      some buf := by
    rw [← related.posted, List.getElem?_append_left (List.getElem?_eq_some_iff.mp found).1, found]
  obtain ⟨phase, earlier, recvs, same⟩ := exists_of_history_getElem? (fun phase => by
    rcases matched source dest phase with ⟨_, recvs⟩ | ⟨_, _, _, recvs, _⟩ <;> simp [recvs]) within
  exact ⟨phase, Nat.le_of_lt_succ earlier, recvs, matched.number_eq source dest phase ▸ same⟩

end Program

/-! ### Simulation by the exchange -/

theorem call_sent (state : State Rank Addr Val) (rank : Rank) (next : Call Rank Addr)
    (source dest : Rank) :
    (state.call rank next).sent source dest =
      if source = rank then state.sent source dest ++ sendsTo [next] dest
      else state.sent source dest := by
  rcases next with ⟨buf, _ | peer⟩ | ⟨buf, _ | peer⟩ <;> simp only [State.call, post] <;> grind

theorem call_posted (state : State Rank Addr Val) (rank : Rank) (next : Call Rank Addr)
    (source dest : Rank) :
    (state.call rank next).posted source dest =
      if dest = rank then state.posted source dest ++ recvsFrom [next] source
      else state.posted source dest := by
  rcases next with ⟨buf, _ | peer⟩ | ⟨buf, _ | peer⟩ <;> simp only [State.call, post] <;> grind

@[simp] theorem call_phase (state : State Rank Addr Val) (rank : Rank) (next : Call Rank Addr) :
    (state.call rank next).phase = state.phase := by
  rcases next with ⟨buf, _ | peer⟩ | ⟨buf, _ | peer⟩ <;> rfl

@[simp] theorem call_todo (state : State Rank Addr Val) (rank : Rank) (next : Call Rank Addr) :
    (state.call rank next).todo = state.todo := by
  rcases next with ⟨buf, _ | peer⟩ | ⟨buf, _ | peer⟩ <;> rfl

@[simp] theorem call_mem (state : State Rank Addr Val) (rank : Rank) (next : Call Rank Addr) :
    (state.call rank next).mem = state.mem := by
  rcases next with ⟨buf, _ | peer⟩ | ⟨buf, _ | peer⟩ <;> rfl

@[simp] theorem call_status (state : State Rank Addr Val) (rank : Rank) (next : Call Rank Addr) :
    (state.call rank next).status = state.status := by
  rcases next with ⟨buf, _ | peer⟩ | ⟨buf, _ | peer⟩ <;> rfl

theorem sendsTo_cons (next : Call Rank Addr) (rest : List (Call Rank Addr)) (dest : Rank) :
    sendsTo (next :: rest) dest = sendsTo [next] dest ++ sendsTo rest dest :=
  List.filterMap_append (l := [next])

theorem recvsFrom_cons (next : Call Rank Addr) (rest : List (Call Rank Addr)) (source : Rank) :
    recvsFrom (next :: rest) source = recvsFrom [next] source ++ recvsFrom rest source :=
  List.filterMap_append (l := [next])

omit [DecidableEq Rank] in
theorem read_iff {state : State Rank Addr Val} {rank : Rank} :
    state.Read rank ↔ ∀ {dest message buf}, (state.sent rank dest)[message]? = some buf →
      ∀ index < buf.length, state.status rank dest message index ≠ .unread := by
  constructor
  · intro read dest message buf found index inside
    have done := read dest message (List.getElem?_eq_some_iff.mp found).1 index
    rw [List.getD_eq_getElem?_getD, found, Option.getD_some] at done
    exact Status.isUnread_eq_false.mp (done inside)
  · intro read dest message bound index inside
    rw [List.getD_eq_getElem?_getD, List.getElem?_eq_getElem bound, Option.getD_some] at inside
    exact Status.isUnread_eq_false.mpr (read (List.getElem?_eq_getElem bound) index inside)

omit [DecidableEq Rank] in
theorem stored_iff {state : State Rank Addr Val} {rank : Rank} :
    state.Stored rank ↔ ∀ {source message buf}, (state.posted source rank)[message]? = some buf →
      ∀ index < buf.length, state.status source rank message index = .stored := by
  constructor
  · intro stored source message buf found index inside
    have done := stored source message (List.getElem?_eq_some_iff.mp found).1 index
    rw [List.getD_eq_getElem?_getD, found, Option.getD_some] at done
    exact Status.isStored_eq_true.mp (done inside)
  · intro stored source message bound index inside
    rw [List.getD_eq_getElem?_getD, List.getElem?_eq_getElem bound, Option.getD_some] at inside
    exact Status.isStored_eq_true.mpr (stored (List.getElem?_eq_getElem bound) index inside)

namespace Program.Related

variable {program : Program Rank Addr Val} {state : State Rank Addr Val}
  {image : Exchange.State Rank Addr Val}

/-- A call posts what was still to post. -/
theorem call (related : program.Related state image) {rank : Rank} {next : Call Rank Addr}
    {rest : List (Call Rank Addr)} (here : state.todo rank = next :: rest) :
    program.Related ((state.call rank next).setTodo rank rest) image where
  phase := by simpa [State.setTodo] using related.phase
  mem := by simpa [State.setTodo] using related.mem
  sent source dest := by
    have before := related.sent source dest
    simp only [State.setTodo, call_sent, call_todo, call_phase]
    obtain rfl | other := eq_or_ne source rank
    · rw [here, sendsTo_cons] at before
      simpa using before
    · simpa [other] using before
  posted source dest := by
    have before := related.posted source dest
    simp only [State.setTodo, call_posted, call_todo, call_phase]
    obtain rfl | other := eq_or_ne dest rank
    · rw [here, recvsFrom_cons] at before
      simpa using before
    · simpa [other] using before
  status := by simpa [State.setTodo] using related.status

/-- Both sides record the same progress of an element. -/
theorem setStatus (related : program.Related state image) {source dest : Rank}
    {phase : ℕ} (present : program.sends source dest phase ≠ []) (index : ℕ)
    (status : Status Val) :
    program.Related
      (state.setStatus source dest (program.number source dest phase) index status)
      (image.setStatus phase source dest index status) where
  phase := related.phase
  mem := related.mem
  sent := related.sent
  posted := related.posted
  status phase' source' dest' index' present' := by
    have before := related.status phase' source' dest' index' present'
    simp only [State.setStatus, Exchange.State.setStatus]
    by_cases same : phase' = phase ∧ source' = source ∧ dest' = dest ∧ index' = index
    · obtain ⟨rfl, rfl, rfl, rfl⟩ := same
      simp
    · have different : ¬ (source' = source ∧ dest' = dest ∧
          program.number source' dest' phase' = program.number source dest phase ∧
          index' = index) := by
        rintro ⟨rfl, rfl, number, rfl⟩
        exact same ⟨history_length_inj present' present number, rfl, rfl, rfl⟩
      rw [if_neg same, if_neg different, before]

variable [DecidableEq Addr]

theorem step_read (related : program.Related state image) (matched : program.Matched)
    (settled : program.exchange.Settled image)
    {source dest : Rank} {message index : ℕ} {buf : List Addr} {address : Addr}
    (found : (state.sent source dest)[message]? = some buf)
    (element : buf[index]? = some address)
    (unread : state.status source dest message index = .unread) :
    ∃ image', Exchange.Step program.exchange image (.read source dest index) image' ∧
      program.Related (state.setStatus source dest message index
        (.flying (state.mem source address))) image' := by
  obtain ⟨phase, reached, sends, rfl⟩ := related.phase_of_sent matched found
  obtain ⟨recvBuf, _, lengths, transfers⟩ := matched.transfers_eq sends
  have present : program.sends source dest phase ≠ [] := by simp [sends]
  have unread' : image.status phase source dest index = .unread := by
    rw [related.status phase source dest index present, unread]
  obtain ⟨inside, rfl⟩ := List.getElem?_eq_some_iff.mp element
  have inside' : index < recvBuf.length := lengths ▸ inside
  have listed : (program.exchange.transfers phase source dest)[index]? =
      some (buf[index], recvBuf[index]) := by
    rw [transfers, List.getElem?_zip_eq_some]
    simp [inside, inside']
  have within := (List.getElem?_eq_some_iff.mp listed).1
  obtain rfl : phase = image.phase source :=
    Nat.le_antisymm (related.phase ▸ reached) (settled.phase_le_of_unread within unread')
  refine ⟨_, .read _ _ listed unread', ?_⟩
  rw [related.mem]
  exact related.setStatus present index _

theorem step_store (related : program.Related state image) (matched : program.Matched)
    (settled : program.exchange.Settled image)
    {source dest : Rank} {message index : ℕ} {buf : List Addr} {address : Addr} {value : Val}
    (found : (state.posted source dest)[message]? = some buf)
    (element : buf[index]? = some address)
    (flying : state.status source dest message index = .flying value) :
    ∃ image', Exchange.Step program.exchange image (.store source dest index) image' ∧
      program.Related { state.setStatus source dest message index .stored with
        mem := Function.update state.mem dest
          (Function.update (state.mem dest) address value) } image' := by
  obtain ⟨phase, reached, recvs, rfl⟩ := related.phase_of_posted matched found
  obtain ⟨sendBuf, sends⟩ : ∃ sendBuf, program.sends source dest phase = [sendBuf] := by
    rcases matched source dest phase with ⟨_, none⟩ | ⟨sendBuf, _, sends, _⟩
    · simp [none] at recvs
    · exact ⟨sendBuf, sends⟩
  obtain ⟨recvBuf, recvs', lengths, transfers⟩ := matched.transfers_eq sends
  obtain rfl : recvBuf = buf := by simpa [recvs'] using recvs
  have present : program.sends source dest phase ≠ [] := by simp [sends]
  have flying' : image.status phase source dest index = .flying value := by
    rw [related.status phase source dest index present, flying]
  obtain ⟨inside, rfl⟩ := List.getElem?_eq_some_iff.mp element
  have inside' : index < sendBuf.length := lengths ▸ inside
  have listed : (program.exchange.transfers phase source dest)[index]? =
      some (sendBuf[index], recvBuf[index]) := by
    rw [transfers, List.getElem?_zip_eq_some]
    simp [inside, inside']
  have within := (List.getElem?_eq_some_iff.mp listed).1
  obtain rfl : phase = image.phase dest :=
    Nat.le_antisymm (related.phase ▸ reached)
      (settled.phase_le_of_pending within (by simp [flying']))
  refine ⟨_, .store _ _ value listed flying',
    { related.setStatus present index .stored with mem := ?_ }⟩
  simp [Exchange.State.setMem, Exchange.State.setStatus, related.mem]

omit [DecidableEq Addr] in
/-- A rank with no calls left has sent the messages of its phases so far. -/
theorem sent_of_idle (related : program.Related state image) {source dest : Rank} {phase : ℕ}
    {buf : List Addr} (idle : state.todo source = [])
    (sends : program.sends source dest phase = [buf]) (reached : phase ≤ state.phase source) :
    (state.sent source dest)[program.number source dest phase]? = some buf := by
  have all := related.sent source dest
  rw [idle, sendsTo_nil, List.append_nil] at all
  rw [all]
  exact history_getElem? sends (Nat.lt_succ_of_le reached)

omit [DecidableEq Addr] in
/-- A rank with no calls left has posted the receives of its phases so far. -/
theorem posted_of_idle (related : program.Related state image) (matched : program.Matched)
    {source dest : Rank} {phase : ℕ} {buf : List Addr} (idle : state.todo dest = [])
    (recvs : program.recvs source dest phase = [buf]) (reached : phase ≤ state.phase dest) :
    (state.posted source dest)[program.number source dest phase]? = some buf := by
  have all := related.posted source dest
  rw [idle, recvsFrom_nil, List.append_nil] at all
  rw [all, ← matched.number_eq]
  exact history_getElem? recvs (Nat.lt_succ_of_le reached)

omit [DecidableEq Addr] in
/-- When a rank with no calls left has read its send buffers, the transfers of its
phase have been read. -/
theorem read_exchange (related : program.Related state image) (matched : program.Matched)
    {rank : Rank} (idle : state.todo rank = []) (read : state.Read rank) :
    image.Read program.exchange rank := by
  intro dest index inside
  rw [related.phase] at inside ⊢
  rcases matched rank dest (state.phase rank) with ⟨none, _⟩ | ⟨sendBuf, _, sends, _⟩
  · simp [exchange, none] at inside
  obtain ⟨_, _, lengths, transfers⟩ := matched.transfers_eq sends
  rw [transfers, List.length_zip] at inside
  rw [related.status _ _ _ _ (by simp [sends])]
  exact read_iff.mp read (related.sent_of_idle idle sends (Nat.le_refl _)) index (by omega)

omit [DecidableEq Addr] in
/-- When a rank with no calls left has filled its receive buffers, the transfers to
it of its phase have been stored. -/
theorem stored_exchange (related : program.Related state image) (matched : program.Matched)
    {rank : Rank} (idle : state.todo rank = []) (stored : state.Stored rank) :
    image.Stored program.exchange rank := by
  intro source index inside
  rw [related.phase] at inside ⊢
  rcases matched source rank (state.phase rank) with ⟨none, _⟩ | ⟨_, recvBuf, sends, recvs, _⟩
  · simp [exchange, none] at inside
  obtain ⟨_, recvs', lengths, transfers⟩ := matched.transfers_eq sends
  obtain rfl : recvBuf = _ := List.singleton_inj.mp (recvs.symm.trans recvs')
  rw [transfers, List.length_zip] at inside
  rw [related.status _ _ _ _ (by simp [sends])]
  exact stored_iff.mp stored (related.posted_of_idle matched idle recvs (Nat.le_refl _)) index
    (by omega)

omit [DecidableEq Addr] in
/-- The next phase begins with all its calls still to make. -/
theorem advance (related : program.Related state image) {rank : Rank}
    (idle : state.todo rank = []) (mem : Addr → Val) :
    program.Related (state.advance rank (program.callsAt (state.phase rank + 1) rank) mem)
      (image.advance rank mem) where
  phase := by simp [State.advance, Exchange.State.advance, related.phase]
  mem := by simp [State.advance, Exchange.State.advance, related.mem]
  sent source dest := by
    have before := related.sent source dest
    simp only [State.advance]
    obtain rfl | other := eq_or_ne source rank
    · rw [idle, sendsTo_nil, List.append_nil] at before
      rw [Function.update_self, Function.update_self, history, before]
      rfl
    · rwa [Function.update_of_ne other, Function.update_of_ne other]
  posted source dest := by
    have before := related.posted source dest
    simp only [State.advance]
    obtain rfl | other := eq_or_ne dest rank
    · rw [idle, recvsFrom_nil, List.append_nil] at before
      rw [Function.update_self, Function.update_self, history, before]
      rfl
    · rwa [Function.update_of_ne other, Function.update_of_ne other]
  status := related.status

end Program.Related

variable [Fintype Rank] [DecidableEq Addr]

/-- Everything one step can do. -/
inductive Stepped (program : Program Rank Addr Val) (state : State Rank Addr Val) :
    Action Rank → State Rank Addr Val → Prop where
  | call {rank next rest} (here : state.todo rank = next :: rest) :
      Stepped program state (.call rank) ((state.call rank next).setTodo rank rest)
  | read {source dest message index buf address}
      (found : (state.sent source dest)[message]? = some buf)
      (element : buf[index]? = some address)
      (unread : state.status source dest message index = .unread) :
      Stepped program state (.read source dest message index)
        (state.setStatus source dest message index (.flying (state.mem source address)))
  | store {source dest message index buf address value}
      (found : (state.posted source dest)[message]? = some buf)
      (element : buf[index]? = some address)
      (flying : state.status source dest message index = .flying value) :
      Stepped program state (.store source dest message index)
        { state.setStatus source dest message index .stored with
          mem := Function.update state.mem dest (Function.update (state.mem dest) address value) }
  | waitall {rank} (left : state.phase rank < program.phases) (idle : state.todo rank = [])
      (read : state.Read rank) (stored : state.Stored rank) :
      Stepped program state (.waitall rank)
        (state.advance rank (program.callsAt (state.phase rank + 1) rank)
          (program.update (state.phase rank) rank (state.mem rank)))

/-- Inversion of a step. -/
theorem stepped_of_step {program : Program Rank Addr Val} {state next : State Rank Addr Val}
    {action : Action Rank} (taken : step program state action = some next) :
    Stepped program state action next := by
  cases action with
  | call rank =>
      cases here : state.todo rank <;> simp only [step, here, reduceCtorEq] at taken
      obtain rfl := Option.some.inj taken
      exact .call here
  | read source dest message index =>
      obtain ⟨buf, found, taken⟩ := Option.bind_eq_some_iff.mp taken
      obtain ⟨address, element, taken⟩ := Option.bind_eq_some_iff.mp taken
      obtain ⟨unread, same⟩ := Option.ite_none_right_eq_some.mp taken
      obtain rfl := Option.some.inj same
      exact .read found element (Status.isUnread_eq_true.mp unread)
  | store source dest message index =>
      obtain ⟨buf, found, taken⟩ := Option.bind_eq_some_iff.mp taken
      obtain ⟨address, element, taken⟩ := Option.bind_eq_some_iff.mp taken
      split at taken
      · next value flying =>
          obtain rfl := Option.some.inj taken
          exact .store found element flying
      · cases taken
  | waitall rank =>
      obtain ⟨⟨left, idle, read, stored⟩, same⟩ := Option.ite_none_right_eq_some.mp taken
      obtain rfl := Option.some.inj same
      exact .waitall left (List.isEmpty_iff.mp idle) read stored

/-- A program whose messages match phase by phase is simulated by its exchange. -/
theorem Program.simulation {program : Program Rank Addr Val} (matched : program.Matched)
    (Memory : (Rank → Addr → Val) → Prop) :
    (program.system Memory).Simulation (program.exchange.system Memory) program.Related where
  initial := by
    rintro _ ⟨mem, valid, rfl⟩
    refine ⟨Exchange.start mem, ⟨mem, valid, rfl⟩, ?_⟩
    constructor <;> intros <;> simp [start, Exchange.start, history] <;> rfl
  step := by
    intro state image action next reachable related taken
    have settled := Exchange.settled_of_reachable reachable
    cases stepped_of_step taken with
    | call here => exact ⟨[], image, .refl, related.call here⟩
    | read found element unread =>
        obtain ⟨image', taken', related'⟩ :=
          related.step_read matched settled found element unread
        exact ⟨_, image', .single taken', related'⟩
    | store found element flying =>
        obtain ⟨image', taken', related'⟩ :=
          related.step_store matched settled found element flying
        exact ⟨_, image', .single taken', related'⟩
    | waitall _ idle read stored =>
        refine ⟨_, _, .single (.advance (related.read_exchange matched idle read)
          (related.stored_exchange matched idle stored)), ?_⟩
        rw [related.phase, related.mem]
        exact related.advance idle _

/-- No rank goes past the last phase. -/
theorem Program.phase_le {program : Program Rank Addr Val} {Memory : (Rank → Addr → Val) → Prop}
    {state : State Rank Addr Val} (reachable : (program.system Memory).Reachable state)
    (rank : Rank) : state.phase rank ≤ program.phases := by
  revert rank
  refine reachable.invariant (P := fun state => ∀ rank, state.phase rank ≤ program.phases) ?_ ?_
  · rintro _ ⟨mem, _, rfl⟩ rank
    exact Nat.zero_le _
  · intro state action next bounded taken
    cases stepped_of_step taken with
    | call here => simpa [State.setTodo] using bounded
    | read _ _ _ => exact bounded
    | store _ _ _ => exact bounded
    | @waitall rank left _ _ _ =>
        intro other
        obtain rfl | different := eq_or_ne other rank
        · simpa [State.advance, Nat.succ_le_iff] using left
        · simpa [State.advance, different] using bounded other

/-- What a rank of the program reaches, it reaches in the exchange. -/
theorem Program.Reaches.exchange {program : Program Rank Addr Val}
    {Memory : (Rank → Addr → Val) → Prop} {rank : Rank} {phase : ℕ} {mem : Addr → Val}
    (reaches : program.Reaches Memory rank phase mem) (matched : program.Matched) :
    phase ≤ program.phases ∧ program.exchange.Reaches Memory rank phase mem := by
  obtain ⟨state, reachable, rfl, rfl⟩ := reaches
  obtain ⟨image, reachable', related⟩ := (program.simulation matched Memory).reachable reachable
  exact ⟨phase_le reachable rank, image, reachable', by rw [related.phase], by rw [related.mem]⟩

/-- What a rank of the program may end a phase with, it may in the exchange. -/
theorem Program.Completes.exchange {program : Program Rank Addr Val}
    {Memory : (Rank → Addr → Val) → Prop} {rank : Rank} {phase : ℕ} {mem : Addr → Val}
    (completes : program.Completes Memory rank phase mem) (matched : program.Matched) :
    phase < program.phases ∧ program.exchange.Completes Memory rank phase mem := by
  obtain ⟨state, next, reachable, rfl, rfl, taken⟩ := completes
  obtain ⟨image, reachable', related⟩ := (program.simulation matched Memory).reachable reachable
  cases stepped_of_step taken with
  | waitall left idle read stored =>
      exact ⟨left, image, _, reachable', by rw [related.phase], by rw [related.mem],
        .advance (related.read_exchange matched idle read)
          (related.stored_exchange matched idle stored)⟩

/-! ### Progress -/

theorem call_enabled (program : Program Rank Addr Val) {state : State Rank Addr Val}
    {rank : Rank} (pending : state.todo rank ≠ []) :
    step program state (.call rank) ≠ none := by
  obtain ⟨next, rest, here⟩ := List.exists_cons_of_ne_nil pending
  simp [step, here]

theorem read_enabled (program : Program Rank Addr Val) {state : State Rank Addr Val}
    {source dest : Rank} {message index : ℕ} {buf : List Addr}
    (found : (state.sent source dest)[message]? = some buf) (inside : index < buf.length)
    (unread : state.status source dest message index = .unread) :
    step program state (.read source dest message index) ≠ none := by
  simp [step, found, inside, unread]

theorem store_enabled (program : Program Rank Addr Val) {state : State Rank Addr Val}
    {source dest : Rank} {message index : ℕ} {buf : List Addr} {value : Val}
    (found : (state.posted source dest)[message]? = some buf) (inside : index < buf.length)
    (flying : state.status source dest message index = .flying value) :
    step program state (.store source dest message index) ≠ none := by
  simp [step, found, inside, flying]

/-- A rank enters its phases one after another, by its own calls. -/
theorem phase_step {program : Program Rank Addr Val} {state next : State Rank Addr Val}
    {action : Action Rank} (taken : step program state action = some next) (rank : Rank) :
    next.phase rank = state.phase rank ∨
      (action.caller = some rank ∧ next.phase rank = state.phase rank + 1) := by
  cases stepped_of_step taken with
  | call here => exact .inl (congrFun (call_phase _ _ _) rank)
  | read found element unread => exact .inl rfl
  | store found element flying => exact .inl rfl
  | @waitall caller left idle read stored =>
      by_cases own : rank = caller
      · subst own
        exact .inr ⟨rfl, Function.update_self _ _ _⟩
      · exact .inl (Function.update_of_ne own _ _)

/-- The calls that a rank has before it are the last of its phase. -/
theorem todo_suffix {program : Program Rank Addr Val} {Memory : (Rank → Addr → Val) → Prop}
    {state : State Rank Addr Val} (reachable : (program.system Memory).Reachable state)
    (rank : Rank) : state.todo rank <:+ program.callsAt (state.phase rank) rank := by
  refine reachable.invariant (P := fun state => ∀ rank,
    state.todo rank <:+ program.callsAt (state.phase rank) rank) ?_ ?_ rank
  · rintro state ⟨mem, _, rfl⟩ rank
    exact List.suffix_refl _
  · intro state action next suffix taken rank
    cases stepped_of_step taken with
    | @call caller first rest here =>
        simp only [State.setTodo, call_phase, call_todo]
        by_cases own : rank = caller
        · subst own
          rw [Function.update_self]
          have before := suffix rank
          rw [here] at before
          exact (List.suffix_cons _ _).trans before
        · rw [Function.update_of_ne own]
          exact suffix rank
    | read found element unread => exact suffix rank
    | store found element flying => exact suffix rank
    | @waitall caller left idle read stored =>
        simp only [State.advance]
        by_cases own : rank = caller
        · subst own
          rw [Function.update_self, Function.update_self]
        · rw [Function.update_of_ne own, Function.update_of_ne own]
          exact suffix rank

omit [Fintype Rank] [DecidableEq Addr] in
/-- The messages of the phases that a rank has left have been sent. -/
theorem Program.Related.sent_of_left {program : Program Rank Addr Val}
    {state : State Rank Addr Val} {image : Exchange.State Rank Addr Val}
    (related : program.Related state image) {source dest : Rank} {phase : ℕ} {buf : List Addr}
    (suffix : state.todo source <:+ program.callsAt (state.phase source) source)
    (sends : program.sends source dest phase = [buf]) (left : phase < state.phase source) :
    (state.sent source dest)[program.number source dest phase]? = some buf := by
  obtain ⟨made, calls⟩ := suffix
  have all := related.sent source dest
  have now : program.sends source dest (state.phase source) =
      sendsTo made dest ++ sendsTo (state.todo source) dest := by
    rw [Program.sends, ← calls]
    exact List.filterMap_append
  rw [history, now, ← List.append_assoc] at all
  rw [List.append_cancel_right all]
  have before := history_getElem? sends left
  exact (List.getElem?_append_left (List.getElem?_eq_some_iff.mp before).1).trans before

/-- Where those that are furthest behind have made all calls, and nothing is under way, one of
them has its receive buffers filled. -/
theorem Program.Related.stored_of_behind {program : Program Rank Addr Val}
    {state : State Rank Addr Val} {image : Exchange.State Rank Addr Val}
    (related : program.Related state image) (matched : program.Matched)
    (suffix : ∀ rank, state.todo rank <:+ program.callsAt (state.phase rank) rank)
    {last : Rank} (minimal : ∀ rank, state.phase last ≤ state.phase rank)
    (idle : ∀ rank, state.phase rank = state.phase last → state.todo rank = [])
    (read : ∀ rank, state.Read rank)
    (disabled : ∀ source dest message index,
      step program state (.store source dest message index) = none) :
    state.Stored last := by
  refine stored_iff.mpr fun {source message buf} found index inside => ?_
  obtain ⟨phase, reached, recvs, rfl⟩ := related.phase_of_posted matched found
  rcases matched source last phase with ⟨_, none⟩ | ⟨sendBuf, recvBuf, sends, recvs', lengths⟩
  · simp [none] at recvs
  obtain rfl : recvBuf = buf := List.singleton_inj.mp (recvs'.symm.trans recvs)
  have sent : (state.sent source last)[program.number source last phase]? = some sendBuf := by
    rcases Nat.lt_or_eq_of_le (minimal source) with ahead | same
    · exact related.sent_of_left (suffix source) sends (reached.trans_lt ahead)
    · exact related.sent_of_idle (idle source same.symm) sends (reached.trans (minimal source))
  cases progress : state.status source last (program.number source last phase) index with
  | unread => exact absurd progress (read_iff.mp (read source) sent index (lengths ▸ inside))
  | flying value =>
      exact absurd (disabled source last _ index) (store_enabled program found inside progress)
  | stored => rfl

/-- Where a rank with phases left is furthest behind, a call of one of those furthest behind can
return, or an element can be read or stored. -/
theorem Program.progress_behind {program : Program Rank Addr Val} (matched : program.Matched)
    {Memory : (Rank → Addr → Val) → Prop} {state : State Rank Addr Val}
    (reachable : (program.system Memory).Reachable state) {last : Rank}
    (left : state.phase last < program.phases)
    (minimal : ∀ rank, state.phase last ≤ state.phase rank) :
    ∃ action next, step program state action = some next ∧
      ∀ rank, action.caller = some rank → state.phase rank = state.phase last := by
  by_contra stuck
  have disabled : ∀ action : Action Rank,
      (∀ rank, action.caller = some rank → state.phase rank = state.phase last) →
        step program state action = none := fun action behind =>
    Option.eq_none_iff_forall_ne_some.mpr fun next taken => stuck ⟨action, next, taken, behind⟩
  obtain ⟨image, _, related⟩ := (program.simulation matched Memory).reachable reachable
  have idle : ∀ rank, state.phase rank = state.phase last → state.todo rank = [] := by
    intro rank same
    by_contra pending
    refine call_enabled program pending (disabled _ fun other caller => ?_)
    obtain rfl := Option.some.inj caller
    exact same
  have read : ∀ rank, state.Read rank := fun rank =>
    read_iff.mpr fun found index inside unread =>
      read_enabled program found inside unread (disabled _ fun _ caller => nomatch caller)
  have stored := related.stored_of_behind matched (todo_suffix reachable) minimal idle read
    fun _ _ _ _ => disabled _ fun _ caller => nomatch caller
  have returned := disabled (.waitall last) fun other caller => by
    obtain rfl := Option.some.inj caller
    rfl
  simp [step, left, idle last rfl, read, stored] at returned

/-- No state is a deadlock: while a rank has phases left, some step is enabled. -/
theorem Program.progress {program : Program Rank Addr Val} (matched : program.Matched)
    (Memory : (Rank → Addr → Val) → Prop) :
    (program.system Memory).NeverStuck program.Unfinished := by
  refine neverStuck_of_behind fun reachable left minimal => ?_
  obtain ⟨action, next, taken, _⟩ := Program.progress_behind matched reachable left minimal
  exact ⟨action, next, taken⟩

end HandsOn.Mpi.PointToPoint
