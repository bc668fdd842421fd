import Mathlib.Logic.Function.Basic
import Mathlib.Data.Fin.Basic
import HandsOn.Semantics.Transition
import HandsOn.Mutex.Waitlist

/-!
# Processes calling `MPIMUTEX_Lock` and `MPIMUTEX_Unlock` in turn

The window of the home rank is the only shared memory. Each exclusive
`MPI_Win_lock`..`MPI_Win_unlock` epoch is one step that fetches the other ranks'
bytes and stores the caller's own; testing the fetched copy, receiving a
`WAKEUP` and sending one are steps of their own. A `WAKEUP` is in flight from
the step that sends it to the `MPI_Recv` that completes with it, and a receive
from `MPI_ANY_SOURCE` may complete with any message in flight to its rank.
-/

namespace HandsOn.Mutex

open HandsOn.Semantics

variable {nprocs : ℕ}

/-- Where a process is. A fetched copy is kept until it has been tested. -/
inductive Pc where
  | outside
  /-- `MPIMUTEX_Lock` after its epoch, before the test of `waitlistcopy`. -/
  | lockTest (waitlistcopy : List UInt8)
  /-- `MPIMUTEX_Lock` in `MPI_Recv`. -/
  | lockRecv
  | inside
  /-- `MPIMUTEX_Unlock` after its epoch, before the test of `waitlistcopy`. -/
  | unlockTest (waitlistcopy : List UInt8)
  /-- `MPIMUTEX_Unlock` before its `MPI_Send` to `nextrank`. -/
  | unlockSend (nextrank : ℕ)
deriving DecidableEq

/-- A `WAKEUP` message. -/
structure Wakeup (nprocs : ℕ) where
  source : Fin nprocs
  dest : Fin nprocs
deriving DecidableEq

/-- The processes, the window memory each rank contributes, and the messages
sent and not yet received. -/
structure State (nprocs : ℕ) where
  pc : Fin nprocs → Pc
  waitlist : Fin nprocs → List UInt8
  wakeups : List (Wakeup nprocs)

/-- The next step of one process. -/
inductive Action (nprocs : ℕ) where
  | lockEpoch (rank : Fin nprocs)
  | lockTest (rank : Fin nprocs)
  | lockRecv (rank source : Fin nprocs)
  | unlockEpoch (rank : Fin nprocs)
  | unlockTest (rank : Fin nprocs)
  | unlockSend (rank : Fin nprocs)
deriving DecidableEq

/-- One process moves on. -/
def State.setPc (state : State nprocs) (rank : Fin nprocs) (pc : Pc) : State nprocs :=
  { state with pc := Function.update state.pc rank pc }

/-- `MPI_Put` of `val` into the caller's byte of the home rank's window. -/
def State.put (state : State nprocs) (homerank myrank : Fin nprocs) (val : UInt8) :
    State nprocs :=
  { state with
    waitlist := Function.update state.waitlist homerank
      ((state.waitlist homerank).set myrank val) }

/-- `MPI_Get` of the other ranks' bytes from the home rank's window. -/
def State.get (state : State nprocs) (homerank myrank : Fin nprocs) : List UInt8 :=
  waitlistcopy myrank (state.waitlist homerank)

/-- A rank's byte in the home rank's window. -/
def State.byte (state : State nprocs) (homerank rank : Fin nprocs) : UInt8 :=
  (state.waitlist homerank).getD rank 0

/-- One step of the chosen process; `none` where it cannot take it. -/
def step (homerank : Fin nprocs) (state : State nprocs) :
    Action nprocs → Option (State nprocs)
  | .lockEpoch rank =>
      match state.pc rank with
      | .outside =>
          some ((state.put homerank rank 1).setPc rank (.lockTest (state.get homerank rank)))
      | _ => none
  | .lockTest rank =>
      match state.pc rank with
      | .lockTest copy =>
          (firstWaiter nprocs copy).map fun i =>
            state.setPc rank (if i < nprocs - 1 then .lockRecv else .inside)
      | _ => none
  | .lockRecv rank source =>
      match state.pc rank with
      | .lockRecv =>
          if ⟨source, rank⟩ ∈ state.wakeups then
            some { state.setPc rank .inside with
                   wakeups := state.wakeups.erase ⟨source, rank⟩ }
          else none
      | _ => none
  | .unlockEpoch rank =>
      match state.pc rank with
      | .inside =>
          some ((state.put homerank rank 0).setPc rank (.unlockTest (state.get homerank rank)))
      | _ => none
  | .unlockTest rank =>
      match state.pc rank with
      | .unlockTest copy =>
          (firstWaiter nprocs copy).bind fun i =>
            if i < nprocs - 1 then
              (nextrank nprocs rank copy).map fun next => state.setPc rank (.unlockSend next)
            else some (state.setPc rank .outside)
      | _ => none
  | .unlockSend rank =>
      match state.pc rank with
      | .unlockSend next =>
          if valid : next < nprocs then
            some { state.setPc rank .outside with
                   wakeups := state.wakeups ++ [⟨rank, ⟨next, valid⟩⟩] }
          else none
      | _ => none

/-- After `MPIMUTEX_Create`: only the home rank contributes memory, `nprocs`
zero bytes, and every process is outside. -/
def create (homerank : Fin nprocs) : State nprocs where
  pc _ := .outside
  waitlist rank := if rank = homerank then List.replicate nprocs 0 else []
  wakeups := []

/-- Any number of calls by any process, in any interleaving. -/
def system (homerank : Fin nprocs) : System (State nprocs) (Action nprocs) :=
  .computed (fun state => state = create homerank) (step homerank)

section Update

variable (state : State nprocs) (rank homerank : Fin nprocs)

@[simp] theorem setPc_pc_self (pc : Pc) : (state.setPc rank pc).pc rank = pc := by
  simp [State.setPc]

theorem setPc_pc_of_ne {rank other : Fin nprocs} (pc : Pc) (different : other ≠ rank) :
    (state.setPc rank pc).pc other = state.pc other := by
  simp [State.setPc, different]

@[simp] theorem setPc_byte (pc : Pc) :
    (state.setPc rank pc).byte homerank = state.byte homerank := rfl

@[simp] theorem setPc_waitlist (pc : Pc) :
    (state.setPc rank pc).waitlist = state.waitlist := rfl

@[simp] theorem setPc_wakeups (pc : Pc) : (state.setPc rank pc).wakeups = state.wakeups := rfl

@[simp] theorem put_pc (val : UInt8) : (state.put homerank rank val).pc = state.pc := rfl

@[simp] theorem put_wakeups (val : UInt8) :
    (state.put homerank rank val).wakeups = state.wakeups := rfl

@[simp] theorem length_put (val : UInt8) :
    ((state.put homerank rank val).waitlist homerank).length =
      (state.waitlist homerank).length := by
  simp [State.put]

theorem put_byte_self (length : (state.waitlist homerank).length = nprocs) (val : UInt8) :
    (state.put homerank rank val).byte homerank rank = val := by
  have bounded : (rank : ℕ) < (state.waitlist homerank).length := by
    rw [length]
    exact rank.isLt
  simp [State.byte, State.put, List.getD_eq_getElem?_getD, bounded]

theorem put_byte_of_ne {rank other : Fin nprocs} (val : UInt8) (different : other ≠ rank) :
    (state.put homerank rank val).byte homerank other = state.byte homerank other := by
  have apart : (rank : ℕ) ≠ other := fun same => different (Fin.ext same.symm)
  simp [State.byte, State.put, List.getD_eq_getElem?_getD, apart]

end Update

/-- Everything one step can do. -/
inductive Stepped (homerank : Fin nprocs) (state : State nprocs) :
    Action nprocs → State nprocs → Prop where
  | lockEpoch {rank} (here : state.pc rank = .outside) :
      Stepped homerank state (.lockEpoch rank)
        ((state.put homerank rank 1).setPc rank (.lockTest (state.get homerank rank)))
  | lockTest {rank copy i} (here : state.pc rank = .lockTest copy)
      (found : firstWaiter nprocs copy = some i) :
      Stepped homerank state (.lockTest rank)
        (state.setPc rank (if i < nprocs - 1 then .lockRecv else .inside))
  | lockRecv {rank source} (here : state.pc rank = .lockRecv)
      (flying : ⟨source, rank⟩ ∈ state.wakeups) :
      Stepped homerank state (.lockRecv rank source)
        { state.setPc rank .inside with wakeups := state.wakeups.erase ⟨source, rank⟩ }
  | unlockEpoch {rank} (here : state.pc rank = .inside) :
      Stepped homerank state (.unlockEpoch rank)
        ((state.put homerank rank 0).setPc rank (.unlockTest (state.get homerank rank)))
  | unlockNone {rank copy i} (here : state.pc rank = .unlockTest copy)
      (found : firstWaiter nprocs copy = some i) (none : ¬ i < nprocs - 1) :
      Stepped homerank state (.unlockTest rank) (state.setPc rank .outside)
  | unlockNext {rank copy i next} (here : state.pc rank = .unlockTest copy)
      (found : firstWaiter nprocs copy = some i) (some : i < nprocs - 1)
      (chosen : nextrank nprocs rank copy = .some next) :
      Stepped homerank state (.unlockTest rank) (state.setPc rank (.unlockSend next))
  | unlockSend {rank} (dest : Fin nprocs) (here : state.pc rank = .unlockSend dest) :
      Stepped homerank state (.unlockSend rank)
        { state.setPc rank .outside with wakeups := state.wakeups ++ [⟨rank, dest⟩] }

/-- Inversion of a step. -/
theorem stepped_of_step {homerank : Fin nprocs} {state next : State nprocs}
    {action : Action nprocs} (taken : step homerank state action = some next) :
    Stepped homerank state action next := by
  cases action with
  | lockEpoch rank =>
      cases here : state.pc rank <;> simp only [step, here, reduceCtorEq] at taken
      obtain rfl := Option.some.inj taken
      exact .lockEpoch here
  | lockTest rank =>
      cases here : state.pc rank <;> simp only [step, here, reduceCtorEq] at taken
      obtain ⟨i, found, rfl⟩ := Option.map_eq_some_iff.mp taken
      exact .lockTest here found
  | lockRecv rank source =>
      cases here : state.pc rank <;> simp only [step, here, reduceCtorEq] at taken
      split at taken
      · next flying =>
          obtain rfl := Option.some.inj taken
          exact .lockRecv here flying
      · cases taken
  | unlockEpoch rank =>
      cases here : state.pc rank <;> simp only [step, here, reduceCtorEq] at taken
      obtain rfl := Option.some.inj taken
      exact .unlockEpoch here
  | unlockTest rank =>
      cases here : state.pc rank <;> simp only [step, here, reduceCtorEq] at taken
      obtain ⟨i, found, rest⟩ := Option.bind_eq_some_iff.mp taken
      split at rest
      · next waiting =>
          obtain ⟨chosen, search, rfl⟩ := Option.map_eq_some_iff.mp rest
          exact .unlockNext here found waiting search
      · next empty =>
          obtain rfl := Option.some.inj rest
          exact .unlockNone here found empty
  | unlockSend rank =>
      cases here : state.pc rank <;> simp only [step, here, reduceCtorEq] at taken
      split at taken
      · next valid =>
          obtain rfl := Option.some.inj taken
          exact .unlockSend ⟨_, valid⟩ here
      · cases taken

end HandsOn.Mutex
