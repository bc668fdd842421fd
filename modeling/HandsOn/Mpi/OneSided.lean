import Mathlib.Data.Fintype.EquivFin
import Mathlib.Data.Fintype.Lattice
import Mathlib.Data.Nat.Count
import HandsOn.Mpi.Exchange

/-!
# One-sided communication

Each rank runs phases of `MPI_Win_post`, `MPI_Win_start`, `MPI_Put` calls,
`MPI_Win_complete` and `MPI_Win_wait` on one window. The `n`-th access epoch of a
rank to a target on a window matches the target's `n`-th exposure epoch to it on
that window. An element of a put may be read from its origin buffer until the
origin's `MPI_Win_complete` returns, and stored to the target from its
`MPI_Win_post` until its `MPI_Win_wait` returns, which waits for the matching
access epochs to be completed.

Two `MPI_Win_fence` calls around the puts are a subset of these calls: a fence
starts and ends the epochs that the puts between it and its neighbour make
necessary. `fenceGroup` is that subset, the weakest that a fence allows.
-/

namespace HandsOn.Mpi.OneSided

open HandsOn.Semantics

universe u v w x

/-- A put of the elements at `origin` to the addresses `dest` of `target`, both
in typemap order; the target `none` is `MPI_PROC_NULL`. -/
structure Put (Rank : Type u) (Addr : Type v) where
  origin : List Addr
  target : Option Rank
  dest : List Addr

/-- The epochs of each rank, phase by phase: the window, the group posted and
started to, the puts in program order, and the local computation after
`MPI_Win_wait`. -/
structure Program (Window : Type x) (Rank : Type u) (Addr : Type v) (Val : Type w) where
  phases : ℕ
  window : ℕ → Window
  group : ℕ → Rank → List Rank
  puts : ℕ → Rank → List (Put Rank Addr)
  update : ℕ → Rank → (Addr → Val) → Addr → Val

/-- The puts of a phase; none after the last. -/
def Program.putsAt {Window : Type x} {Rank : Type u} {Addr : Type v} {Val : Type w}
    (program : Program Window Rank Addr Val) (phase : ℕ) (rank : Rank) : List (Put Rank Addr) :=
  if phase < program.phases then program.puts phase rank else []

/-- The next call of a rank in its phase. -/
inductive Stage (Rank : Type u) (Addr : Type v) where
  | post
  | start
  | access (puts : List (Put Rank Addr))
  | wait

/-- Each rank's phase, next call and memory. For a window, an origin and a target:
how many exposure epochs the target has opened, how many access epochs the origin
has opened and completed, the elements put in the `n`-th, and their progress. -/
structure State (Window : Type x) (Rank : Type u) (Addr : Type v) (Val : Type w) where
  phase : Rank → ℕ
  stage : Rank → Stage Rank Addr
  mem : Rank → Addr → Val
  exposed : Window → Rank → Rank → ℕ
  opened : Window → Rank → Rank → ℕ
  completed : Window → Rank → Rank → ℕ
  issued : Window → Rank → Rank → ℕ → List (Addr × Addr)
  status : Window → Rank → Rank → ℕ → ℕ → Status Val

/-- The next call of a rank, or the next step of an element of a put. -/
inductive Action (Window : Type x) (Rank : Type u) where
  | call (rank : Rank)
  | read (window : Window) (source dest : Rank) (epoch index : ℕ)
  | store (window : Window) (source dest : Rank) (epoch index : ℕ)

/-- The rank whose call returns. -/
def Action.caller {Window : Type x} {Rank : Type u} : Action Window Rank → Option Rank
  | .call rank => some rank
  | .read .. | .store .. => none

variable {Window : Type x} {Rank : Type u} {Addr : Type v} {Val : Type w}
  [DecidableEq Window] [DecidableEq Rank]

/-- The elements that `puts` move to `dest`, from origin to target address. -/
def elementsTo (puts : List (Put Rank Addr)) (dest : Rank) : List (Addr × Addr) :=
  puts.flatMap fun put => if put.target = some dest then put.origin.zip put.dest else []

@[simp] theorem elementsTo_nil (dest : Rank) :
    elementsTo ([] : List (Put Rank Addr)) dest = [] := rfl

@[simp] theorem elementsTo_cons (put : Put Rank Addr) (rest : List (Put Rank Addr))
    (dest : Rank) : elementsTo (put :: rest) dest =
      (if put.target = some dest then put.origin.zip put.dest else []) ++
        elementsTo rest dest := rfl

/-- The ranks whose windows `rank` puts to between two fences, and those that put
to its window. -/
def fenceGroup (ranks : List Rank) (puts : Rank → List (Put Rank Addr))
    (rank : Rank) : List Rank :=
  ranks.filter fun other =>
    (puts rank).any (·.target = some other) || (puts other).any (·.target = some rank)

omit [DecidableEq Window] in
theorem mem_fenceGroup {ranks : List Rank} {puts : Rank → List (Put Rank Addr)}
    {rank other : Rank} :
    other ∈ fenceGroup ranks puts rank ↔ other ∈ ranks ∧
      ((∃ put ∈ puts rank, put.target = some other) ∨
        ∃ put ∈ puts other, put.target = some rank) := by
  simp [fenceGroup]

/-- Count one more epoch of a window for the pairs selected. -/
def bump (table : Window → Rank → Rank → ℕ) (window : Window) (select : Rank → Rank → Bool) :
    Window → Rank → Rank → ℕ :=
  fun window' source dest =>
    if window' = window ∧ select source dest then table window' source dest + 1
    else table window' source dest

namespace State

def setStage (state : State Window Rank Addr Val) (rank : Rank) (stage : Stage Rank Addr) :
    State Window Rank Addr Val :=
  { state with stage := Function.update state.stage rank stage }

def setStatus (state : State Window Rank Addr Val) (window : Window) (source dest : Rank)
    (epoch index : ℕ) (status : Status Val) : State Window Rank Addr Val :=
  { state with
    status := fun window' source' dest' epoch' index' =>
      if window' = window ∧ source' = source ∧ dest' = dest ∧ epoch' = epoch ∧ index' = index
      then status else state.status window' source' dest' epoch' index' }

/-- `rank` opens an exposure epoch to `group`. -/
def post (state : State Window Rank Addr Val) (window : Window) (rank : Rank)
    (group : List Rank) : State Window Rank Addr Val :=
  { state with
    exposed := bump state.exposed window fun source dest => dest = rank ∧ source ∈ group }

/-- `rank` opens an access epoch to `group`. -/
def start (state : State Window Rank Addr Val) (window : Window) (rank : Rank)
    (group : List Rank) : State Window Rank Addr Val :=
  { state with
    opened := bump state.opened window fun source dest => source = rank ∧ dest ∈ group }

/-- The elements of a put join the open access epoch. -/
def put (state : State Window Rank Addr Val) (window : Window) (rank : Rank)
    (put : Put Rank Addr) : State Window Rank Addr Val :=
  match put.target with
  | none => state
  | some target =>
      { state with
        issued := fun window' source dest epoch =>
          if window' = window ∧ source = rank ∧ dest = target ∧
              epoch + 1 = state.opened window rank target then
            state.issued window' source dest epoch ++ put.origin.zip put.dest
          else state.issued window' source dest epoch }

/-- `rank` completes its access epoch to `group`. -/
def complete (state : State Window Rank Addr Val) (window : Window) (rank : Rank)
    (group : List Rank) : State Window Rank Addr Val :=
  { state with
    completed := bump state.completed window fun source dest => source = rank ∧ dest ∈ group }

/-- `rank` updates its memory and enters its next phase. -/
def advance (state : State Window Rank Addr Val) (rank : Rank) (mem : Addr → Val) :
    State Window Rank Addr Val :=
  { state with
    phase := Function.update state.phase rank (state.phase rank + 1)
    stage := Function.update state.stage rank .post
    mem := Function.update state.mem rank mem }

/-- The origin buffers of the open access epoch of `rank` have been read. -/
def Read (state : State Window Rank Addr Val) (window : Window) (rank : Rank)
    (group : List Rank) : Prop :=
  ∀ dest ∈ group, ∀ index <
      (state.issued window rank dest (state.opened window rank dest - 1)).length,
    (state.status window rank dest (state.opened window rank dest - 1) index).isUnread = false

/-- The access epochs that match the open exposure epoch of `rank` are completed
and their elements stored. -/
def Stored (state : State Window Rank Addr Val) (window : Window) (rank : Rank)
    (group : List Rank) : Prop :=
  ∀ source ∈ group, state.exposed window source rank ≤ state.completed window source rank ∧
    ∀ index < (state.issued window source rank (state.exposed window source rank - 1)).length,
      (state.status window source rank (state.exposed window source rank - 1) index).isStored =
        true

instance (state : State Window Rank Addr Val) (window : Window) (rank : Rank)
    (group : List Rank) : Decidable (state.Read window rank group) :=
  inferInstanceAs (Decidable (∀ _ ∈ group, ∀ index < _, _ = false))

instance (state : State Window Rank Addr Val) (window : Window) (rank : Rank)
    (group : List Rank) : Decidable (state.Stored window rank group) :=
  inferInstanceAs (Decidable (∀ _ ∈ group, _ ≤ _ ∧ ∀ index < _, _ = true))

end State

section Machine

variable [DecidableEq Addr]

/-- The next call of `rank` returns; `none` while it blocks. -/
def call (program : Program Window Rank Addr Val) (state : State Window Rank Addr Val)
    (rank : Rank) : Option (State Window Rank Addr Val) :=
  let window := program.window (state.phase rank)
  let group := program.group (state.phase rank) rank
  match state.stage rank with
  | .post =>
      if state.phase rank < program.phases then
        some ((state.post window rank group).setStage rank .start)
      else none
  | .start =>
      some ((state.start window rank group).setStage rank
        (.access (program.putsAt (state.phase rank) rank)))
  | .access (put :: rest) => some ((state.put window rank put).setStage rank (.access rest))
  | .access [] =>
      if state.Read window rank group then
        some ((state.complete window rank group).setStage rank .wait)
      else none
  | .wait =>
      if state.Stored window rank group then
        some (state.advance rank (program.update (state.phase rank) rank (state.mem rank)))
      else none

/-- One step; `none` where it is not enabled. -/
def step (program : Program Window Rank Addr Val) (state : State Window Rank Addr Val) :
    Action Window Rank → Option (State Window Rank Addr Val)
  | .call rank => call program state rank
  | .read window source dest epoch index =>
      (state.issued window source dest epoch)[index]?.bind fun element =>
        if (state.status window source dest epoch index).isUnread then
          some (state.setStatus window source dest epoch index
            (.flying (state.mem source element.1)))
        else none
  | .store window source dest epoch index =>
      (state.issued window source dest epoch)[index]?.bind fun element =>
        match state.status window source dest epoch index with
        | .flying value =>
            if epoch < state.exposed window source dest then
              some { state.setStatus window source dest epoch index .stored with
                     mem := Function.update state.mem dest
                       (Function.update (state.mem dest) element.2 value) }
            else none
        | _ => none

/-- The state before the first call. -/
def start (mem : Rank → Addr → Val) : State Window Rank Addr Val where
  phase _ := 0
  stage _ := .post
  mem := mem
  exposed _ _ _ := 0
  opened _ _ _ := 0
  completed _ _ _ := 0
  issued _ _ _ _ := []
  status _ _ _ _ _ := .unread

/-- Runs of the program from initial memories that satisfy `Memory`. -/
def Program.system (program : Program Window Rank Addr Val)
    (Memory : (Rank → Addr → Val) → Prop) :
    System (State Window Rank Addr Val) (Action Window Rank) :=
  .computed (fun state => ∃ mem, Memory mem ∧ state = start mem) (step program)

/-- `rank` may be in phase `phase` with memory `mem`. -/
def Program.Reaches (program : Program Window Rank Addr Val)
    (Memory : (Rank → Addr → Val) → Prop) (rank : Rank) (phase : ℕ) (mem : Addr → Val) : Prop :=
  ∃ state, (program.system Memory).Reachable state ∧ state.phase rank = phase ∧
    state.mem rank = mem

/-- The `MPI_Win_wait` of `rank` in phase `phase` may return with memory `mem`. -/
def Program.Completes (program : Program Window Rank Addr Val)
    (Memory : (Rank → Addr → Val) → Prop) (rank : Rank) (phase : ℕ) (mem : Addr → Val) : Prop :=
  ∃ state next, (program.system Memory).Reachable state ∧ state.phase rank = phase ∧
    state.mem rank = mem ∧ state.stage rank = .wait ∧ call program state rank = some next

/-- Some rank has phases left. -/
def Program.Unfinished (program : Program Window Rank Addr Val)
    (state : State Window Rank Addr Val) : Prop :=
  ∃ rank, state.phase rank < program.phases

end Machine

/-! ### Matching epochs by phase -/

/-- The puts still to make in a phase. -/
def Stage.remaining (stage : Stage Rank Addr) (puts : List (Put Rank Addr)) :
    List (Put Rank Addr) :=
  match stage with
  | .post | .start => puts
  | .access rest => rest
  | .wait => []

/-- The exposure epoch of the phase is open. -/
def Stage.posted : Stage Rank Addr → Bool
  | .post => false
  | .start | .access _ | .wait => true

/-- The access epoch of the phase has been opened. -/
def Stage.started : Stage Rank Addr → Bool
  | .post | .start => false
  | .access _ | .wait => true

/-- The access epoch of the phase is completed. -/
def Stage.completed : Stage Rank Addr → Bool
  | .post | .start | .access _ => false
  | .wait => true

namespace Program

variable (program : Program Window Rank Addr Val)

/-- `source` has an access epoch to `dest` on `window` in a phase. -/
def Accesses (window : Window) (source dest : Rank) (phase : ℕ) : Prop :=
  program.window phase = window ∧ dest ∈ program.group phase source

instance (window : Window) (source dest : Rank) :
    DecidablePred (program.Accesses window source dest) :=
  fun _ => inferInstanceAs (Decidable (_ ∧ _))

/-- The access epochs of `source` to `dest` on `window` before a phase. -/
def epochs (window : Window) (source dest : Rank) (phase : ℕ) : ℕ :=
  Nat.count (program.Accesses window source dest) phase

/-- In each phase, the groups are symmetric and contain the targets of the puts. -/
structure Matched : Prop where
  symm : ∀ {phase source dest}, dest ∈ program.group phase source →
    source ∈ program.group phase dest
  target : ∀ {phase rank put dest}, put ∈ program.putsAt phase rank → put.target = some dest →
    dest ∈ program.group phase rank

/-- The element transfers of a program whose epochs match. -/
def exchange : Exchange Rank Addr Val where
  transfers phase source dest := elementsTo (program.putsAt phase source) dest
  update := program.update

/-- The puts of a phase that a rank has still to make. -/
def remaining (state : State Window Rank Addr Val) (phase : ℕ) (rank : Rank) :
    List (Put Rank Addr) :=
  if phase < state.phase rank then []
  else if phase = state.phase rank then (state.stage rank).remaining (program.putsAt phase rank)
  else program.putsAt phase rank

/-- A state of a program corresponds to one of its exchange: the epochs opened and
completed are those of the phases so far, and the elements put in the epoch of a
phase and still to be put are the transfers of the phase. -/
structure Related (state : State Window Rank Addr Val) (image : Exchange.State Rank Addr Val) :
    Prop where
  phase : image.phase = state.phase
  mem : image.mem = state.mem
  exposed : ∀ window source dest, state.exposed window source dest =
    program.epochs window source dest (state.phase dest + (state.stage dest).posted.toNat)
  opened : ∀ window source dest, state.opened window source dest =
    program.epochs window source dest (state.phase source + (state.stage source).started.toNat)
  completed : ∀ window source dest, state.completed window source dest =
    program.epochs window source dest (state.phase source + (state.stage source).completed.toNat)
  issued : ∀ phase source dest, dest ∈ program.group phase source →
    state.issued (program.window phase) source dest
        (program.epochs (program.window phase) source dest phase) ++
      elementsTo (program.remaining state phase source) dest =
    program.exchange.transfers phase source dest
  remaining : ∀ rank, (state.stage rank).remaining (program.putsAt (state.phase rank) rank) ⊆
    program.putsAt (state.phase rank) rank
  epoch : ∀ window source dest epoch, state.issued window source dest epoch ≠ [] →
    ∃ phase ≤ state.phase source, program.Accesses window source dest phase ∧
      program.epochs window source dest phase = epoch
  status : ∀ phase source dest index, dest ∈ program.group phase source →
    image.status phase source dest index = state.status (program.window phase) source dest
      (program.epochs (program.window phase) source dest phase) index
  read : ∀ source, (state.stage source).completed → image.Read program.exchange source

variable {program}

theorem epochs_succ (window : Window) (source dest : Rank) (phase : ℕ) :
    program.epochs window source dest (phase + 1) =
      if program.Accesses window source dest phase then
        program.epochs window source dest phase + 1
      else program.epochs window source dest phase := by
  rw [epochs, Nat.count_succ, epochs]
  split <;> rfl

theorem epochs_inj {window : Window} {source dest : Rank} {first second : ℕ}
    (left : program.Accesses window source dest first)
    (right : program.Accesses window source dest second)
    (same : program.epochs window source dest first = program.epochs window source dest second) :
    first = second :=
  Nat.count_injective left right same

theorem epochs_lt_iff {window : Window} {source dest : Rank} {first second : ℕ}
    (accesses : program.Accesses window source dest first) :
    program.epochs window source dest first < program.epochs window source dest second ↔
      first < second :=
  ⟨fun less => Nat.lt_of_not_le fun ordered =>
      Nat.not_lt_of_le (Nat.count_monotone _ ordered) less,
    Nat.count_strict_mono accesses⟩

omit [DecidableEq Window] in
/-- Ranks only transfer to ranks of their group. -/
theorem Matched.group_of_transfer (matched : program.Matched) {phase : ℕ} {source dest : Rank}
    {index : ℕ} (inside : index < (program.exchange.transfers phase source dest).length) :
    dest ∈ program.group phase source := by
  by_contra outside
  have none : program.exchange.transfers phase source dest = [] := by
    refine List.flatMap_eq_nil_iff.mpr fun put listed => if_neg fun aimed => ?_
    exact outside (matched.target listed aimed)
  simp [none] at inside

omit [DecidableEq Window] in
theorem accesses_iff {window : Window} {phase : ℕ} {rank source dest : Rank} :
    (window = program.window phase ∧
        decide (source = rank ∧ dest ∈ program.group phase rank) = true) ↔
      source = rank ∧ program.Accesses window source dest phase := by
  rw [decide_eq_true_eq]
  constructor
  · rintro ⟨rfl, rfl, member⟩
    exact ⟨rfl, rfl, member⟩
  · rintro ⟨rfl, rfl, member⟩
    exact ⟨rfl, rfl, member⟩

omit [DecidableEq Window] in
theorem Matched.exposes_iff (matched : program.Matched) {window : Window} {phase : ℕ}
    {rank source dest : Rank} :
    (window = program.window phase ∧
        decide (dest = rank ∧ source ∈ program.group phase rank) = true) ↔
      dest = rank ∧ program.Accesses window source dest phase := by
  rw [decide_eq_true_eq]
  constructor
  · rintro ⟨rfl, rfl, member⟩
    exact ⟨rfl, rfl, matched.symm member⟩
  · rintro ⟨rfl, rfl, member⟩
    exact ⟨rfl, rfl, matched.symm member⟩

end Program

/-! ### Simulation by the exchange -/

@[simp] theorem put_phase (state : State Window Rank Addr Val) (window : Window) (rank : Rank)
    (put : Put Rank Addr) : (state.put window rank put).phase = state.phase := by
  unfold State.put
  split <;> rfl

@[simp] theorem put_stage (state : State Window Rank Addr Val) (window : Window) (rank : Rank)
    (put : Put Rank Addr) : (state.put window rank put).stage = state.stage := by
  unfold State.put
  split <;> rfl

@[simp] theorem put_mem (state : State Window Rank Addr Val) (window : Window) (rank : Rank)
    (put : Put Rank Addr) : (state.put window rank put).mem = state.mem := by
  unfold State.put
  split <;> rfl

@[simp] theorem put_exposed (state : State Window Rank Addr Val) (window : Window) (rank : Rank)
    (put : Put Rank Addr) : (state.put window rank put).exposed = state.exposed := by
  unfold State.put
  split <;> rfl

@[simp] theorem put_opened (state : State Window Rank Addr Val) (window : Window) (rank : Rank)
    (put : Put Rank Addr) : (state.put window rank put).opened = state.opened := by
  unfold State.put
  split <;> rfl

@[simp] theorem put_completed (state : State Window Rank Addr Val) (window : Window)
    (rank : Rank) (put : Put Rank Addr) :
    (state.put window rank put).completed = state.completed := by
  unfold State.put
  split <;> rfl

@[simp] theorem put_status (state : State Window Rank Addr Val) (window : Window) (rank : Rank)
    (put : Put Rank Addr) : (state.put window rank put).status = state.status := by
  unfold State.put
  split <;> rfl

/-- A put adds its elements to the open access epoch to its target. -/
theorem put_issued (state : State Window Rank Addr Val) (window : Window) (rank : Rank)
    (put : Put Rank Addr) (window' : Window) (source dest : Rank) (epoch : ℕ) :
    (state.put window rank put).issued window' source dest epoch =
      if window' = window ∧ source = rank ∧ epoch + 1 = state.opened window rank dest then
        state.issued window' source dest epoch ++ elementsTo [put] dest
      else state.issued window' source dest epoch := by
  unfold State.put
  split
  · next aimed => simp [aimed]
  · next target aimed =>
      by_cases same : dest = target
      · simp [aimed, same]
      · simp [aimed, same, Ne.symm same]

namespace Program.Related

variable {program : Program Window Rank Addr Val} {state : State Window Rank Addr Val}
  {image : Exchange.State Rank Addr Val}

section SetStage

variable {rank other : Rank} {window : Window} {source dest : Rank}
  (flag : Stage Rank Addr → Bool) (stage : Stage Rank Addr)

/-- Where a rank's next stage opens or completes no epoch of a kind, their number stays. -/
theorem count_setStage {count : ℕ} (same : flag stage = flag (state.stage rank))
    (before : count = program.epochs window source dest
      (state.phase other + (flag (state.stage other)).toNat)) :
    count = program.epochs window source dest
      (state.phase other + (flag (Function.update state.stage rank stage other)).toNat) := by
  obtain rfl | different := eq_or_ne other rank
  · rwa [Function.update_self, same]
  · rwa [Function.update_of_ne different]

/-- Where it opens or completes one, the number is one more for the ranks it accesses. -/
theorem count_bump {table : Window → Rank → Rank → ℕ} {select : Rank → Rank → Bool}
    (before : table window source dest = program.epochs window source dest
      (state.phase other + (flag (state.stage other)).toNat))
    (closed : flag (state.stage rank) = false) (opens : flag stage = true)
    (selects : window = program.window (state.phase rank) ∧ select source dest = true ↔
      other = rank ∧ program.Accesses window source dest (state.phase rank)) :
    bump table (program.window (state.phase rank)) select window source dest =
      program.epochs window source dest
        (state.phase other + (flag (Function.update state.stage rank stage other)).toNat) := by
  rw [bump, if_congr selects rfl rfl]
  obtain rfl | different := eq_or_ne other rank
  · rw [closed, Bool.toNat_false, Nat.add_zero] at before
    rw [Function.update_self, opens, Bool.toNat_true, epochs_succ, before]
    exact if_congr (and_iff_right rfl) rfl rfl
  · rw [if_neg fun selected => different selected.1, Function.update_of_ne different, before]

/-- The next phase begins where all epochs of the last are open and complete. -/
theorem count_advance {count : ℕ} (first : flag .post = false)
    (last : flag (state.stage rank) = true)
    (before : count = program.epochs window source dest
      (state.phase other + (flag (state.stage other)).toNat)) :
    count = program.epochs window source dest
      (Function.update state.phase rank (state.phase rank + 1) other +
        (flag (Function.update state.stage rank .post other)).toNat) := by
  obtain rfl | different := eq_or_ne other rank
  · rwa [Function.update_self, Function.update_self, first, Bool.toNat_false, Nat.add_zero,
      ← Bool.toNat_true, ← last]
  · rwa [Function.update_of_ne different, Function.update_of_ne different]

omit [DecidableEq Window] in
theorem remaining_setStage
    (same : stage.remaining (program.putsAt (state.phase rank) rank) =
      (state.stage rank).remaining (program.putsAt (state.phase rank) rank)) (phase : ℕ) :
    program.remaining (state.setStage rank stage) phase other =
      program.remaining state phase other := by
  refine ite_congr rfl (fun _ => rfl) fun _ => ite_congr rfl (fun current => ?_) fun _ => rfl
  change (Function.update state.stage rank stage other).remaining _ = _
  obtain rfl | different := eq_or_ne other rank
  · rw [Function.update_self, show phase = state.phase other from current, same]
  · rw [Function.update_of_ne different]

theorem remaining_subset (related : program.Related state image)
    (subset : stage.remaining (program.putsAt (state.phase rank) rank) ⊆
      program.putsAt (state.phase rank) rank) (other : Rank) :
    (Function.update state.stage rank stage other).remaining
      (program.putsAt (state.phase other) other) ⊆ program.putsAt (state.phase other) other := by
  obtain rfl | different := eq_or_ne other rank
  · rwa [Function.update_self]
  · rw [Function.update_of_ne different]
    exact related.remaining other

theorem read_setStage (related : program.Related state image) (unfinished : stage.completed = false)
    (done : (Function.update state.stage rank stage other).completed = true) :
    image.Read program.exchange other := by
  obtain rfl | different := eq_or_ne other rank
  · rw [Function.update_self, unfinished] at done
    cases done
  · rw [Function.update_of_ne different] at done
    exact related.read other done

/-- A stage that leaves the same puts to make leaves the elements as they are. -/
theorem issued_setStage (related : program.Related state image)
    (same : stage.remaining (program.putsAt (state.phase rank) rank) =
      (state.stage rank).remaining (program.putsAt (state.phase rank) rank)) (phase : ℕ)
    {source dest : Rank} (member : dest ∈ program.group phase source) :
    state.issued (program.window phase) source dest
        (program.epochs (program.window phase) source dest phase) ++
      elementsTo (program.remaining (state.setStage rank stage) phase source) dest =
    program.exchange.transfers phase source dest := by
  rw [remaining_setStage stage same]
  exact related.issued phase source dest member

end SetStage

theorem post (related : program.Related state image) (matched : program.Matched) {rank : Rank}
    (here : state.stage rank = .post) :
    program.Related ((state.post (program.window (state.phase rank)) rank
      (program.group (state.phase rank) rank)).setStage rank .start) image where
  phase := related.phase
  mem := related.mem
  exposed window source dest := by
    simp only [State.setStage, State.post]
    exact count_bump Stage.posted .start (related.exposed window source dest)
      (by rw [here]; rfl) rfl matched.exposes_iff
  opened _ _ _ := count_setStage Stage.started .start (by rw [here]; rfl) (related.opened ..)
  completed _ _ _ :=
    count_setStage Stage.completed .start (by rw [here]; rfl) (related.completed ..)
  issued phase _ _ member :=
    related.issued_setStage .start (by rw [here]; rfl) phase member
  remaining := related.remaining_subset .start (List.Subset.refl _)
  epoch := related.epoch
  status := related.status
  read _ done := related.read_setStage .start rfl done

theorem start (related : program.Related state image) {rank : Rank}
    (here : state.stage rank = .start) :
    program.Related ((state.start (program.window (state.phase rank)) rank
      (program.group (state.phase rank) rank)).setStage rank
        (.access (program.putsAt (state.phase rank) rank))) image where
  phase := related.phase
  mem := related.mem
  exposed _ _ _ := count_setStage Stage.posted (.access _) (by rw [here]; rfl) (related.exposed ..)
  opened window source dest := by
    simp only [State.setStage, State.start]
    exact count_bump Stage.started (.access _) (related.opened window source dest)
      (by rw [here]; rfl) rfl accesses_iff
  completed _ _ _ :=
    count_setStage Stage.completed (.access _) (by rw [here]; rfl) (related.completed ..)
  issued phase _ _ member :=
    related.issued_setStage (.access _) (by rw [here]; rfl) phase member
  remaining := related.remaining_subset (.access _) (List.Subset.refl _)
  epoch := related.epoch
  status := related.status
  read _ done := related.read_setStage (.access _) rfl done

/-- The elements of a put join the epoch of the current phase. -/
theorem issued_put (related : program.Related state image) (matched : program.Matched)
    {rank : Rank} {put : Put Rank Addr} {rest : List (Put Rank Addr)}
    (here : state.stage rank = .access (put :: rest)) (window : Window) (source dest : Rank)
    (epoch : ℕ) :
    (state.put (program.window (state.phase rank)) rank put).issued window source dest epoch =
      if source = rank ∧ program.Accesses window rank dest (state.phase rank) ∧
          epoch = program.epochs window rank dest (state.phase rank) then
        state.issued window source dest epoch ++ elementsTo [put] dest
      else state.issued window source dest epoch := by
  rw [put_issued]
  by_cases member : dest ∈ program.group (state.phase rank) rank
  · have opened := related.opened (program.window (state.phase rank)) rank dest
    have accesses : program.Accesses (program.window (state.phase rank)) rank dest
      (state.phase rank) := ⟨rfl, member⟩
    simp only [here, Stage.started, Bool.toNat_true, epochs_succ, accesses, if_true] at opened
    refine if_congr ⟨?_, ?_⟩ rfl rfl
    · rintro ⟨rfl, rfl, last⟩
      exact ⟨rfl, accesses, by omega⟩
    · rintro ⟨rfl, ⟨rfl, -⟩, rfl⟩
      exact ⟨rfl, rfl, opened.symm⟩
  · have listed : put ∈ program.putsAt (state.phase rank) rank := by
      have all := related.remaining rank
      rw [here] at all
      exact all List.mem_cons_self
    have empty : elementsTo [put] dest = [] := by
      rw [elementsTo_cons, elementsTo_nil, List.append_nil]
      exact if_neg fun aimed => member (matched.target listed aimed)
    simp [empty]

theorem put (related : program.Related state image) (matched : program.Matched) {rank : Rank}
    {put : Put Rank Addr} {rest : List (Put Rank Addr)}
    (here : state.stage rank = .access (put :: rest)) :
    program.Related ((state.put (program.window (state.phase rank)) rank put).setStage rank
      (.access rest)) image where
  phase := by simpa [State.setStage] using related.phase
  mem := by simpa [State.setStage] using related.mem
  exposed window source dest := by
    simp only [State.setStage, put_exposed, put_stage, put_phase]
    exact count_setStage Stage.posted (.access rest) (by rw [here]; rfl) (related.exposed ..)
  opened window source dest := by
    simp only [State.setStage, put_opened, put_stage, put_phase]
    exact count_setStage Stage.started (.access rest) (by rw [here]; rfl) (related.opened ..)
  completed window source dest := by
    simp only [State.setStage, put_completed, put_stage, put_phase]
    exact count_setStage Stage.completed (.access rest) (by rw [here]; rfl) (related.completed ..)
  issued := by
    intro phase source dest member
    have before := related.issued phase source dest member
    simp only [State.setStage, Program.remaining, related.issued_put matched here, put_stage,
      put_phase] at before ⊢
    obtain rfl | other := eq_or_ne source rank
    · simp only [Function.update_self, here, Stage.remaining] at before ⊢
      by_cases same : phase = state.phase source
      · subst same
        have accesses : program.Accesses (program.window (state.phase source)) source dest
          (state.phase source) := ⟨rfl, member⟩
        simpa [accesses] using before
      · rw [if_neg]
        · simpa [same] using before
        · rintro ⟨-, accesses, epoch⟩
          exact same (epochs_inj ⟨rfl, member⟩ accesses epoch)
    · simpa [other] using before
  remaining source := by
    simp only [State.setStage, put_stage, put_phase]
    refine related.remaining_subset (.access rest) ?_ source
    have all := related.remaining rank
    rw [here] at all
    exact (List.cons_subset.mp all).2
  epoch window source dest epoch nonempty := by
    simp only [State.setStage, related.issued_put matched here, put_phase] at nonempty ⊢
    split at nonempty
    · next last =>
        obtain ⟨rfl, accesses, rfl⟩ := last
        exact ⟨state.phase source, Nat.le_refl _, accesses, rfl⟩
    · exact related.epoch window source dest epoch nonempty
  status := by simpa [State.setStage] using related.status
  read source done := by
    simp only [State.setStage, put_stage] at done
    exact related.read_setStage (.access rest) rfl done

omit [DecidableEq Window] [DecidableEq Rank] in
/-- A rank makes no more puts in a phase whose epoch it has completed. -/
theorem remaining_eq_nil {phase : ℕ} {rank : Rank}
    (past : phase < state.phase rank + (state.stage rank).completed.toNat) :
    program.remaining state phase rank = [] := by
  unfold Program.remaining
  split
  · rfl
  · next current =>
      cases here : state.stage rank with
      | wait =>
          rw [here, Stage.completed, Bool.toNat_true] at past
          rw [if_pos (by omega), Stage.remaining]
      | _ =>
          rw [here, Stage.completed, Bool.toNat_false] at past
          exact absurd past current

/-- The elements of a phase whose puts are all made. -/
theorem issued_eq (related : program.Related state image) {phase : ℕ} {source dest : Rank}
    (member : dest ∈ program.group phase source)
    (none : program.remaining state phase source = []) :
    state.issued (program.window phase) source dest
        (program.epochs (program.window phase) source dest phase) =
      program.exchange.transfers phase source dest := by
  have all := related.issued phase source dest member
  rwa [none, elementsTo_nil, List.append_nil] at all

/-- Once a rank's access epoch may complete, the transfers of its phase have been
read. -/
theorem read_exchange (related : program.Related state image) (matched : program.Matched)
    {rank : Rank} (here : state.stage rank = .access [])
    (read : state.Read (program.window (state.phase rank)) rank
      (program.group (state.phase rank) rank)) :
    image.Read program.exchange rank := by
  intro dest index inside
  rw [related.phase] at inside ⊢
  have member := matched.group_of_transfer inside
  have accesses : program.Accesses (program.window (state.phase rank)) rank dest
    (state.phase rank) := ⟨rfl, member⟩
  have opened := related.opened (program.window (state.phase rank)) rank dest
  simp only [here, Stage.started, Bool.toNat_true, epochs_succ, accesses, if_true] at opened
  have issued := related.issued_eq member (by simp [Program.remaining, here, Stage.remaining])
  have done := read dest member index
  rw [opened, Nat.add_sub_cancel, issued] at done
  rw [related.status _ _ _ _ member]
  simpa using done inside

/-- Once a rank's wait may return, the transfers to it of its phase have been
stored. -/
theorem stored_exchange (related : program.Related state image) (matched : program.Matched)
    {rank : Rank} (here : state.stage rank = .wait)
    (stored : state.Stored (program.window (state.phase rank)) rank
      (program.group (state.phase rank) rank)) :
    image.Stored program.exchange rank := by
  intro source index inside
  rw [related.phase] at inside ⊢
  have member := matched.group_of_transfer inside
  have accesses : program.Accesses (program.window (state.phase rank)) source rank
    (state.phase rank) := ⟨rfl, member⟩
  have exposed := related.exposed (program.window (state.phase rank)) source rank
  simp only [here, Stage.posted, Bool.toNat_true, epochs_succ, accesses, if_true] at exposed
  obtain ⟨completed, done⟩ := stored source (matched.symm member)
  rw [related.completed, exposed, Nat.succ_le_iff, epochs_lt_iff accesses] at completed
  have issued := related.issued_eq member (remaining_eq_nil completed)
  rw [exposed, Nat.add_sub_cancel, issued] at done
  rw [related.status _ _ _ _ member]
  simpa using done index inside

theorem complete (related : program.Related state image) (matched : program.Matched)
    {rank : Rank} (here : state.stage rank = .access [])
    (read : state.Read (program.window (state.phase rank)) rank
      (program.group (state.phase rank) rank)) :
    program.Related ((state.complete (program.window (state.phase rank)) rank
      (program.group (state.phase rank) rank)).setStage rank .wait) image where
  phase := related.phase
  mem := related.mem
  exposed _ _ _ := count_setStage Stage.posted .wait (by rw [here]; rfl) (related.exposed ..)
  opened _ _ _ := count_setStage Stage.started .wait (by rw [here]; rfl) (related.opened ..)
  completed window source dest := by
    simp only [State.setStage, State.complete]
    exact count_bump Stage.completed .wait (related.completed window source dest)
      (by rw [here]; rfl) rfl accesses_iff
  issued phase _ _ member :=
    related.issued_setStage .wait (by rw [here]; rfl) phase member
  remaining := related.remaining_subset .wait (List.nil_subset _)
  epoch := related.epoch
  status := related.status
  read source done := by
    obtain rfl | other := eq_or_ne source rank
    · exact related.read_exchange matched here read
    · exact related.read source (by simpa [State.setStage, State.complete, other] using done)

/-- The next phase begins with its epochs still to be opened. -/
theorem advance (related : program.Related state image) {rank : Rank}
    (here : state.stage rank = .wait) (mem : Addr → Val) :
    program.Related (state.advance rank mem) (image.advance rank mem) where
  phase := by simp [State.advance, Exchange.State.advance, related.phase]
  mem := by simp [State.advance, Exchange.State.advance, related.mem]
  exposed _ _ _ := count_advance Stage.posted rfl (by rw [here]; rfl) (related.exposed ..)
  opened _ _ _ := count_advance Stage.started rfl (by rw [here]; rfl) (related.opened ..)
  completed _ _ _ := count_advance Stage.completed rfl (by rw [here]; rfl) (related.completed ..)
  issued := by
    intro phase source dest member
    have before := related.issued phase source dest member
    simp only [State.advance, Program.remaining] at before ⊢
    obtain rfl | other := eq_or_ne source rank
    · simp only [Function.update_self, here, Stage.remaining] at before ⊢
      rw [← before]
      congr 2
      split_ifs <;> first | rfl | omega
    · simpa [other] using before
  remaining source := by
    have before := related.remaining source
    simp only [State.advance]
    obtain rfl | other := eq_or_ne source rank
    · simp [Stage.remaining]
    · simpa [other] using before
  epoch window source dest epoch nonempty := by
    obtain ⟨phase, reached, rest⟩ := related.epoch window source dest epoch nonempty
    refine ⟨phase, reached.trans ?_, rest⟩
    obtain rfl | other := eq_or_ne source rank
    · simp [State.advance]
    · simp [State.advance, other]
  status := related.status
  read source done := by
    obtain rfl | other := eq_or_ne source rank
    · simp [State.advance, Stage.completed] at done
    · intro dest index inside
      simp only [Exchange.State.advance, Function.update_of_ne other] at inside ⊢
      exact related.read source (by simpa [State.advance, other] using done) dest index inside

/-- Both sides record the same progress of an element. -/
theorem setStatus (related : program.Related state image) {phase : ℕ} {source dest : Rank}
    (member : dest ∈ program.group phase source) (index : ℕ) {status : Status Val}
    (begun : status ≠ .unread) :
    program.Related
      (state.setStatus (program.window phase) source dest
        (program.epochs (program.window phase) source dest phase) index status)
      (image.setStatus phase source dest index status) where
  phase := related.phase
  mem := related.mem
  exposed := related.exposed
  opened := related.opened
  completed := related.completed
  issued := related.issued
  remaining := related.remaining
  epoch := related.epoch
  status phase' source' dest' index' member' := by
    have before := related.status phase' source' dest' index' member'
    simp only [State.setStatus, Exchange.State.setStatus]
    by_cases same : phase' = phase ∧ source' = source ∧ dest' = dest ∧ index' = index
    · obtain ⟨rfl, rfl, rfl, rfl⟩ := same
      simp
    · have different : ¬ (program.window phase' = program.window phase ∧ source' = source ∧
          dest' = dest ∧ program.epochs (program.window phase') source' dest' phase' =
            program.epochs (program.window phase) source dest phase ∧ index' = index) := by
        rintro ⟨window, rfl, rfl, epoch, rfl⟩
        rw [← window] at epoch
        exact same ⟨epochs_inj ⟨rfl, member'⟩ ⟨window.symm, member⟩ epoch, rfl, rfl, rfl⟩
      rw [if_neg same, if_neg different, before]
  read source' done dest' index' inside := by
    simp only [Exchange.State.setStatus] at inside ⊢
    split
    · exact begun
    · exact related.read source' done dest' index' inside

/-- An element put so far belongs to the transfers of a phase. -/
theorem listed_of_issued (related : program.Related state image) {window : Window}
    {source dest : Rank} {epoch index : ℕ} {element : Addr × Addr}
    (found : (state.issued window source dest epoch)[index]? = some element) :
    ∃ phase ≤ state.phase source, program.Accesses window source dest phase ∧
      program.epochs window source dest phase = epoch ∧
      (program.exchange.transfers phase source dest)[index]? = some element := by
  have nonempty : state.issued window source dest epoch ≠ [] := by
    rintro empty
    simp [empty] at found
  obtain ⟨phase, reached, accesses, rfl⟩ := related.epoch window source dest epoch nonempty
  refine ⟨phase, reached, accesses, rfl, ?_⟩
  obtain ⟨rfl, member⟩ := accesses
  rw [← related.issued phase source dest member,
    List.getElem?_append_left (List.getElem?_eq_some_iff.mp found).1, found]

variable [DecidableEq Addr]

theorem step_read (related : program.Related state image)
    (settled : program.exchange.Settled image) {window : Window} {source dest : Rank}
    {epoch index : ℕ} {element : Addr × Addr}
    (found : (state.issued window source dest epoch)[index]? = some element)
    (unread : state.status window source dest epoch index = .unread) :
    ∃ image', Exchange.Step program.exchange image (.read source dest index) image' ∧
      program.Related (state.setStatus window source dest epoch index
        (.flying (state.mem source element.1))) image' := by
  obtain ⟨phase, reached, ⟨rfl, member⟩, rfl, listed⟩ := related.listed_of_issued found
  have within := (List.getElem?_eq_some_iff.mp listed).1
  have unread' : image.status phase source dest index = .unread := by
    rw [related.status _ _ _ _ member, unread]
  obtain rfl : phase = image.phase source :=
    Nat.le_antisymm (related.phase ▸ reached) (settled.phase_le_of_unread within unread')
  refine ⟨_, .read _ _ listed unread', ?_⟩
  rw [related.mem]
  exact related.setStatus member index nofun

theorem step_store (related : program.Related state image)
    (settled : program.exchange.Settled image) {window : Window} {source dest : Rank}
    {epoch index : ℕ} {element : Addr × Addr} {value : Val}
    (found : (state.issued window source dest epoch)[index]? = some element)
    (flying : state.status window source dest epoch index = .flying value)
    (exposed : epoch < state.exposed window source dest) :
    ∃ image', Exchange.Step program.exchange image (.store source dest index) image' ∧
      program.Related { state.setStatus window source dest epoch index .stored with
        mem := Function.update state.mem dest
          (Function.update (state.mem dest) element.2 value) } image' := by
  obtain ⟨phase, _, ⟨rfl, member⟩, rfl, listed⟩ := related.listed_of_issued found
  have within := (List.getElem?_eq_some_iff.mp listed).1
  have flying' : image.status phase source dest index = .flying value := by
    rw [related.status _ _ _ _ member, flying]
  have reached : phase ≤ state.phase dest := by
    rw [related.exposed, epochs_lt_iff ⟨rfl, member⟩] at exposed
    have := Bool.toNat_le (state.stage dest).posted
    omega
  obtain rfl : phase = image.phase dest :=
    Nat.le_antisymm (related.phase ▸ reached)
      (settled.phase_le_of_pending within (by simp [flying']))
  have same : program.Related (state.setStatus _ source dest _ index .stored)
      (image.setStatus (image.phase dest) source dest index .stored) :=
    related.setStatus member index nofun
  refine ⟨_, .store _ _ value listed flying', { same with mem := ?_ }⟩
  simp [Exchange.State.setMem, Exchange.State.setStatus, related.mem]

end Program.Related

omit [DecidableEq Window] [DecidableEq Rank] in
/-- Before the first call all puts are still to make. -/
theorem remaining_start (program : Program Window Rank Addr Val) (mem : Rank → Addr → Val)
    (phase : ℕ) (rank : Rank) :
    program.remaining (OneSided.start mem) phase rank = program.putsAt phase rank := by
  unfold Program.remaining
  split_ifs with earlier
  · exact absurd earlier (Nat.not_lt_zero _)
  · rfl
  · rfl

variable [DecidableEq Addr]

/-- Everything one step can do. -/
inductive Stepped (program : Program Window Rank Addr Val) (state : State Window Rank Addr Val) :
    Action Window Rank → State Window Rank Addr Val → Prop where
  | post {rank} (here : state.stage rank = .post) (left : state.phase rank < program.phases) :
      Stepped program state (.call rank)
        ((state.post (program.window (state.phase rank)) rank
          (program.group (state.phase rank) rank)).setStage rank .start)
  | start {rank} (here : state.stage rank = .start) :
      Stepped program state (.call rank)
        ((state.start (program.window (state.phase rank)) rank
          (program.group (state.phase rank) rank)).setStage rank
            (.access (program.putsAt (state.phase rank) rank)))
  | put {rank put rest} (here : state.stage rank = .access (put :: rest)) :
      Stepped program state (.call rank)
        ((state.put (program.window (state.phase rank)) rank put).setStage rank (.access rest))
  | complete {rank} (here : state.stage rank = .access [])
      (read : state.Read (program.window (state.phase rank)) rank
        (program.group (state.phase rank) rank)) :
      Stepped program state (.call rank)
        ((state.complete (program.window (state.phase rank)) rank
          (program.group (state.phase rank) rank)).setStage rank .wait)
  | wait {rank} (here : state.stage rank = .wait)
      (stored : state.Stored (program.window (state.phase rank)) rank
        (program.group (state.phase rank) rank)) :
      Stepped program state (.call rank)
        (state.advance rank (program.update (state.phase rank) rank (state.mem rank)))
  | read {window source dest epoch index element}
      (found : (state.issued window source dest epoch)[index]? = some element)
      (unread : state.status window source dest epoch index = .unread) :
      Stepped program state (.read window source dest epoch index)
        (state.setStatus window source dest epoch index (.flying (state.mem source element.1)))
  | store {window source dest epoch index element value}
      (found : (state.issued window source dest epoch)[index]? = some element)
      (flying : state.status window source dest epoch index = .flying value)
      (exposed : epoch < state.exposed window source dest) :
      Stepped program state (.store window source dest epoch index)
        { state.setStatus window source dest epoch index .stored with
          mem := Function.update state.mem dest
            (Function.update (state.mem dest) element.2 value) }

/-- Inversion of a step. -/
theorem stepped_of_step {program : Program Window Rank Addr Val}
    {state next : State Window Rank Addr Val} {action : Action Window Rank}
    (taken : step program state action = some next) : Stepped program state action next := by
  cases action with
  | call rank =>
      change OneSided.call program state rank = some next at taken
      cases here : state.stage rank with
      | post =>
          simp only [OneSided.call, here] at taken
          obtain ⟨left, same⟩ := Option.ite_none_right_eq_some.mp taken
          exact Option.some.inj same ▸ .post here left
      | start =>
          simp only [OneSided.call, here] at taken
          exact Option.some.inj taken ▸ .start here
      | access puts =>
          cases puts with
          | cons put rest =>
              simp only [OneSided.call, here] at taken
              exact Option.some.inj taken ▸ .put here
          | nil =>
              simp only [OneSided.call, here] at taken
              obtain ⟨read, same⟩ := Option.ite_none_right_eq_some.mp taken
              exact Option.some.inj same ▸ .complete here read
      | wait =>
          simp only [OneSided.call, here] at taken
          obtain ⟨stored, same⟩ := Option.ite_none_right_eq_some.mp taken
          exact Option.some.inj same ▸ .wait here stored
  | read window source dest epoch index =>
      obtain ⟨element, found, taken⟩ := Option.bind_eq_some_iff.mp taken
      obtain ⟨unread, same⟩ := Option.ite_none_right_eq_some.mp taken
      exact Option.some.inj same ▸ .read found (Status.isUnread_eq_true.mp unread)
  | store window source dest epoch index =>
      obtain ⟨element, found, taken⟩ := Option.bind_eq_some_iff.mp taken
      split at taken
      · next value flying =>
          obtain ⟨exposed, same⟩ := Option.ite_none_right_eq_some.mp taken
          exact Option.some.inj same ▸ .store found flying exposed
      · cases taken

/-- A program whose epochs match phase by phase is simulated by its exchange. -/
theorem Program.simulation {program : Program Window Rank Addr Val} (matched : program.Matched)
    (Memory : (Rank → Addr → Val) → Prop) :
    (program.system Memory).Simulation (program.exchange.system Memory) program.Related where
  initial := by
    rintro _ ⟨mem, valid, rfl⟩
    refine ⟨Exchange.start mem, ⟨mem, valid, rfl⟩, ?_⟩
    constructor
    case issued =>
      intro phase source dest _
      rw [remaining_start]
      rfl
    case read => intro source done; cases done
    all_goals
      intros
      simp_all [OneSided.start, Exchange.start, Program.epochs, Stage.posted, Stage.started,
        Stage.completed, Stage.remaining]
  step := by
    intro state image action next reachable related taken
    have settled := Exchange.settled_of_reachable reachable
    cases stepped_of_step taken with
    | post here _ => exact ⟨[], image, .refl, related.post matched here⟩
    | start here => exact ⟨[], image, .refl, related.start here⟩
    | put here => exact ⟨[], image, .refl, related.put matched here⟩
    | complete here read => exact ⟨[], image, .refl, related.complete matched here read⟩
    | @wait rank here stored =>
        refine ⟨_, _, .single (.advance (related.read rank (by rw [here]; rfl))
          (related.stored_exchange matched here stored)), ?_⟩
        rw [related.phase, related.mem]
        exact related.advance here _
    | read found unread =>
        obtain ⟨image', taken', related'⟩ := related.step_read settled found unread
        exact ⟨_, image', .single taken', related'⟩
    | store found flying exposed =>
        obtain ⟨image', taken', related'⟩ := related.step_store settled found flying exposed
        exact ⟨_, image', .single taken', related'⟩

/-- No rank goes past the last phase, and only a rank with phases left opens epochs. -/
theorem Program.phase_bounded {program : Program Window Rank Addr Val}
    {Memory : (Rank → Addr → Val) → Prop} {state : State Window Rank Addr Val}
    (reachable : (program.system Memory).Reachable state) (rank : Rank) :
    state.phase rank ≤ program.phases ∧
      (state.stage rank ≠ .post → state.phase rank < program.phases) := by
  revert rank
  refine reachable.invariant (P := fun state => ∀ rank, state.phase rank ≤ program.phases ∧
    (state.stage rank ≠ .post → state.phase rank < program.phases)) ?_ ?_
  · rintro _ ⟨mem, _, rfl⟩ rank
    exact ⟨Nat.zero_le _, fun busy => absurd rfl busy⟩
  · intro state action next bounded taken other
    have busy : ∀ {rank}, state.stage rank ≠ .post → state.phase rank < program.phases :=
      fun {rank} => (bounded rank).2
    cases stepped_of_step taken with
    | @post rank _ left =>
        obtain rfl | different := eq_or_ne other rank
        · exact ⟨(bounded other).1, fun _ => left⟩
        · simpa [State.setStage, State.post, different] using bounded other
    | @start rank here =>
        obtain rfl | different := eq_or_ne other rank
        · exact ⟨(bounded other).1, fun _ => busy (by simp [here])⟩
        · simpa [State.setStage, State.start, different] using bounded other
    | @put rank put rest here =>
        obtain rfl | different := eq_or_ne other rank
        · exact ⟨by simpa [State.setStage] using (bounded other).1,
            fun _ => by simpa [State.setStage] using busy (by simp [here])⟩
        · simpa [State.setStage, different] using bounded other
    | @complete rank here _ =>
        obtain rfl | different := eq_or_ne other rank
        · exact ⟨(bounded other).1, fun _ => busy (by simp [here])⟩
        · simpa [State.setStage, State.complete, different] using bounded other
    | @wait rank here _ =>
        obtain rfl | different := eq_or_ne other rank
        · simpa [State.advance, Nat.succ_le_iff] using busy (by simp [here])
        · simpa [State.advance, different] using bounded other
    | read _ _ => exact bounded other
    | store _ _ _ => exact bounded other

/-- What a rank of the program reaches, it reaches in the exchange. -/
theorem Program.Reaches.exchange {program : Program Window Rank Addr Val}
    {Memory : (Rank → Addr → Val) → Prop} {rank : Rank} {phase : ℕ} {mem : Addr → Val}
    (reaches : program.Reaches Memory rank phase mem) (matched : program.Matched) :
    phase ≤ program.phases ∧ program.exchange.Reaches Memory rank phase mem := by
  obtain ⟨state, reachable, rfl, rfl⟩ := reaches
  obtain ⟨image, reachable', related⟩ := (program.simulation matched Memory).reachable reachable
  exact ⟨(phase_bounded reachable rank).1, image, reachable', by rw [related.phase],
    by rw [related.mem]⟩

/-- What a rank of the program may end a phase with, it may in the exchange. -/
theorem Program.Completes.exchange {program : Program Window Rank Addr Val}
    {Memory : (Rank → Addr → Val) → Prop} {rank : Rank} {phase : ℕ} {mem : Addr → Val}
    (completes : program.Completes Memory rank phase mem) (matched : program.Matched) :
    phase < program.phases ∧ program.exchange.Completes Memory rank phase mem := by
  obtain ⟨state, next, reachable, rfl, rfl, here, taken⟩ := completes
  obtain ⟨image, reachable', related⟩ := (program.simulation matched Memory).reachable reachable
  have stored : state.Stored (program.window (state.phase rank)) rank
      (program.group (state.phase rank) rank) := by
    simp only [OneSided.call, here] at taken
    exact (Option.ite_none_right_eq_some.mp taken).1
  exact ⟨(phase_bounded reachable rank).2 (by simp [here]), image, _, reachable',
    by rw [related.phase], by rw [related.mem],
    .advance (related.read rank (by rw [here]; rfl)) (related.stored_exchange matched here stored)⟩

/-! ### Progress -/

theorem read_enabled (program : Program Window Rank Addr Val)
    {state : State Window Rank Addr Val} {window : Window} {source dest : Rank}
    {epoch index : ℕ} (inside : index < (state.issued window source dest epoch).length)
    (unread : state.status window source dest epoch index = .unread) :
    step program state (.read window source dest epoch index) ≠ none := by
  simp [step, inside, unread]

theorem store_enabled (program : Program Window Rank Addr Val)
    {state : State Window Rank Addr Val} {window : Window} {source dest : Rank}
    {epoch index : ℕ} {value : Val}
    (inside : index < (state.issued window source dest epoch).length)
    (flying : state.status window source dest epoch index = .flying value)
    (exposed : epoch < state.exposed window source dest) :
    step program state (.store window source dest epoch index) ≠ none := by
  simp [step, inside, flying, exposed]

/-- A rank's next call other than its wait can return once its origin buffers have
been read. -/
theorem call_enabled (program : Program Window Rank Addr Val)
    {state : State Window Rank Addr Val} {rank : Rank}
    (left : state.phase rank < program.phases) (busy : state.stage rank ≠ .wait)
    (read : state.Read (program.window (state.phase rank)) rank
      (program.group (state.phase rank) rank)) :
    step program state (.call rank) ≠ none := by
  simp only [step, call]
  cases here : state.stage rank with
  | post => simp [left]
  | start => simp
  | access puts => cases puts <;> simp [read]
  | wait => exact absurd here busy

/-- A rank enters its phases one after another, by its own calls. -/
theorem phase_step {program : Program Window Rank Addr Val}
    {state next : State Window Rank Addr Val} {action : Action Window Rank}
    (taken : step program state action = some next) (rank : Rank) :
    next.phase rank = state.phase rank ∨
      (action.caller = some rank ∧ next.phase rank = state.phase rank + 1) := by
  cases stepped_of_step taken with
  | post here left => exact .inl rfl
  | start here => exact .inl rfl
  | @put caller put rest here =>
      refine .inl ?_
      rw [State.put]
      split <;> rfl
  | complete here read => exact .inl rfl
  | @wait caller here stored =>
      by_cases own : rank = caller
      · subst own
        exact .inr ⟨rfl, Function.update_self _ _ _⟩
      · exact .inl (Function.update_of_ne own _ _)
  | read found unread => exact .inl rfl
  | store found flying exposed => exact .inl rfl

/-- Where those that are furthest behind wait and nothing is under way, the exposure epoch of
one of them is complete. -/
theorem Program.Related.stored_of_behind {program : Program Window Rank Addr Val}
    {state : State Window Rank Addr Val} {image : Exchange.State Rank Addr Val}
    (related : program.Related state image) (matched : program.Matched)
    (begun : ∀ window source dest epoch,
      ∀ index < (state.issued window source dest epoch).length,
      state.status window source dest epoch index ≠ .unread)
    (disabled : ∀ window source dest epoch index,
      step program state (.store window source dest epoch index) = none)
    {last : Rank} (minimal : ∀ rank, state.phase last ≤ state.phase rank)
    (waits : ∀ rank, state.phase rank = state.phase last → state.stage rank = .wait) :
    state.Stored (program.window (state.phase last)) last
      (program.group (state.phase last) last) := by
  intro source member
  have accesses : program.Accesses (program.window (state.phase last)) source last
    (state.phase last) := ⟨rfl, matched.symm member⟩
  have exposed := related.exposed (program.window (state.phase last)) source last
  simp only [waits last rfl, Stage.posted, Bool.toNat_true, epochs_succ, accesses,
    if_true] at exposed
  have past : state.phase last < state.phase source + (state.stage source).completed.toNat := by
    rcases Nat.lt_or_eq_of_le (minimal source) with earlier | same
    · exact Nat.lt_add_right _ earlier
    · rw [waits source same.symm, Stage.completed, Bool.toNat_true, ← same]
      exact Nat.lt_succ_self _
  rw [related.completed, exposed, Nat.add_sub_cancel, Nat.succ_le_iff, epochs_lt_iff accesses]
  refine ⟨past, fun index inside => Status.isStored_eq_true.mpr ?_⟩
  cases progress : state.status (program.window (state.phase last)) source last
      (program.epochs (program.window (state.phase last)) source last (state.phase last))
      index with
  | unread => exact absurd progress (begun _ _ _ _ _ inside)
  | flying value =>
      refine absurd (disabled _ _ _ _ _) (store_enabled program inside progress ?_)
      rw [exposed]
      exact Nat.lt_succ_self _
  | stored => rfl

/-- Where a rank with phases left is furthest behind, a call of one of those furthest behind can
return, or an element can be read or stored. -/
theorem Program.progress_behind {program : Program Window Rank Addr Val}
    (matched : program.Matched) {Memory : (Rank → Addr → Val) → Prop}
    {state : State Window Rank Addr Val} (reachable : (program.system Memory).Reachable state)
    {last : Rank} (left : state.phase last < program.phases)
    (minimal : ∀ rank, state.phase last ≤ state.phase rank) :
    ∃ action next, step program state action = some next ∧
      ∀ rank, action.caller = some rank → state.phase rank = state.phase last := by
  by_contra stuck
  have disabled : ∀ action : Action Window Rank,
      (∀ rank, action.caller = some rank → state.phase rank = state.phase last) →
        step program state action = none := fun action behind =>
    Option.eq_none_iff_forall_ne_some.mpr fun next taken => stuck ⟨action, next, taken, behind⟩
  have own : ∀ {rank}, state.phase rank = state.phase last →
      step program state (.call rank) = none := fun {rank} same => disabled _ fun other caller => by
    obtain rfl := Option.some.inj caller
    exact same
  obtain ⟨image, _, related⟩ := (program.simulation matched Memory).reachable reachable
  have begun : ∀ window source dest epoch,
      ∀ index < (state.issued window source dest epoch).length,
      state.status window source dest epoch index ≠ .unread :=
    fun _ _ _ _ _ inside unread => read_enabled program inside unread
      (disabled _ fun _ caller => nomatch caller)
  have waits : ∀ rank, state.phase rank = state.phase last → state.stage rank = .wait := by
    intro rank same
    by_contra busy
    refine call_enabled program (same ▸ left) busy (fun dest _ index inside => ?_) (own same)
    exact Status.isUnread_eq_false.mpr (begun _ _ _ _ _ inside)
  have stored := related.stored_of_behind matched begun
    (fun _ _ _ _ _ => disabled _ fun _ caller => nomatch caller) minimal waits
  have returned := own (rfl : state.phase last = state.phase last)
  simp [step, call, waits last rfl, stored] at returned

/-- No state is a deadlock: while a rank has phases left, some step is enabled. -/
theorem Program.progress [Finite Rank] {program : Program Window Rank Addr Val}
    (matched : program.Matched) (Memory : (Rank → Addr → Val) → Prop) :
    (program.system Memory).NeverStuck program.Unfinished := by
  refine neverStuck_of_behind fun reachable left minimal => ?_
  obtain ⟨action, next, taken, _⟩ := Program.progress_behind matched reachable left minimal
  exact ⟨action, next, taken⟩

end HandsOn.Mpi.OneSided
