import Mathlib.Data.Fintype.Basic
import Mathlib.Data.Fintype.Lattice
import HandsOn.Semantics.Transition

/-!
# Phased exchanges of memory elements

Ranks with private memories run phase after phase. In a phase, elements are
transferred from one rank's memory to another's: each is read at some time
during the phase of its source and stored at some later time during the same
phase of its destination, in any order and one by one. A rank ends a phase when
its own elements have been read and those for it stored, and then updates its
memory. Nothing else synchronises the ranks.

`Outline` is a proof outline for such a program: what a memory cell may hold at
the start of a phase and what a transferred element may carry. A sound outline
holds in every reachable state, whatever the order of the transfers.
-/

namespace HandsOn.Mpi

open HandsOn.Semantics

universe u v w

/-- A program of phases: the element transfers of each phase, as pairs of an
address at the source and one at the destination, and each rank's local update. -/
structure Exchange (Rank : Type u) (Addr : Type v) (Val : Type w) where
  transfers : ℕ → Rank → Rank → List (Addr × Addr)
  update : ℕ → Rank → (Addr → Val) → Addr → Val

/-- The progress of one element transfer. -/
inductive Status (Val : Type w) where
  | unread
  | flying (value : Val)
  | stored

def Status.isUnread {Val : Type w} : Status Val → Bool
  | .unread => true
  | _ => false

def Status.isStored {Val : Type w} : Status Val → Bool
  | .stored => true
  | _ => false

@[simp] theorem Status.isUnread_eq_true {Val : Type w} {status : Status Val} :
    status.isUnread = true ↔ status = .unread := by
  cases status <;> simp [isUnread]

@[simp] theorem Status.isUnread_eq_false {Val : Type w} {status : Status Val} :
    status.isUnread = false ↔ status ≠ .unread := by
  cases status <;> simp [isUnread]

@[simp] theorem Status.isStored_eq_true {Val : Type w} {status : Status Val} :
    status.isStored = true ↔ status = .stored := by
  cases status <;> simp [isStored]

namespace Exchange

variable {Rank : Type u} {Addr : Type v} {Val : Type w}

/-- The ranks' phases and memories, and the transfers of every phase by their
source, destination and index. -/
structure State (Rank : Type u) (Addr : Type v) (Val : Type w) where
  phase : Rank → ℕ
  mem : Rank → Addr → Val
  status : ℕ → Rank → Rank → ℕ → Status Val

/-- The next transfer or phase change. -/
inductive Action (Rank : Type u) where
  | read (source dest : Rank) (index : ℕ)
  | store (source dest : Rank) (index : ℕ)
  | advance (rank : Rank)

/-- The state before the first phase. -/
def start (mem : Rank → Addr → Val) : State Rank Addr Val where
  phase _ := 0
  mem := mem
  status _ _ _ _ := .unread

/-- Everything `rank` sends in its phase has been read. -/
def State.Read (exchange : Exchange Rank Addr Val) (state : State Rank Addr Val)
    (rank : Rank) : Prop :=
  ∀ dest, ∀ index < (exchange.transfers (state.phase rank) rank dest).length,
    state.status (state.phase rank) rank dest index ≠ .unread

/-- Everything sent to `rank` in its phase has been stored. -/
def State.Stored (exchange : Exchange Rank Addr Val) (state : State Rank Addr Val)
    (rank : Rank) : Prop :=
  ∀ source, ∀ index < (exchange.transfers (state.phase rank) source rank).length,
    state.status (state.phase rank) source rank index = .stored

/-- `address` of `dest` is stored to in phase `phase` by transfer `index` of
`source`. -/
def Targets (exchange : Exchange Rank Addr Val) (phase : ℕ) (source dest : Rank)
    (index : ℕ) (address : Addr) : Prop :=
  ∃ origin, (exchange.transfers phase source dest)[index]? = some (origin, address)

/-- A rank's memory once its transfers of a phase are over: each target holds an
element transferred to it, every other address what it held before. -/
def Completed (exchange : Exchange Rank Addr Val) (Cell : ℕ → Rank → Addr → Val → Prop)
    (Element : ℕ → Rank → Rank → ℕ → Val → Prop) (phase : ℕ) (rank : Rank) (mem : Addr → Val) :
    Prop :=
  ∀ address, (∃ source index, exchange.Targets phase source rank index address ∧
      Element phase source rank index (mem address)) ∨
    (∀ source index, ¬ exchange.Targets phase source rank index address) ∧
      Cell phase rank address (mem address)

/-- What cells may hold at the start of each phase and what transferred elements
may carry. `relay` covers a cell that is stored to and read in one phase: it may
be read before or after. -/
structure Outline (exchange : Exchange Rank Addr Val) where
  Cell : ℕ → Rank → Addr → Val → Prop
  Element : ℕ → Rank → Rank → ℕ → Val → Prop
  send : ∀ {phase source dest index origin target value},
    (exchange.transfers phase source dest)[index]? = some (origin, target) →
    Cell phase source origin value → Element phase source dest index value
  relay : ∀ {phase first source dest index' index origin target value},
    exchange.Targets phase first source index' origin →
    (exchange.transfers phase source dest)[index]? = some (origin, target) →
    Element phase first source index' value → Element phase source dest index value
  update : ∀ {phase rank mem}, exchange.Completed Cell Element phase rank mem →
    ∀ address, Cell (phase + 1) rank address (exchange.update phase rank mem address)

namespace Outline

variable {exchange : Exchange Rank Addr Val}

/-- What the outline says of a state. -/
structure Sound (outline : Outline exchange) (state : State Rank Addr Val) : Prop where
  cell : ∀ rank address,
    (∃ source index, exchange.Targets (state.phase rank) source rank index address ∧
      outline.Element (state.phase rank) source rank index (state.mem rank address)) ∨
    (∀ source index, exchange.Targets (state.phase rank) source rank index address →
      state.status (state.phase rank) source rank index ≠ .stored) ∧
      outline.Cell (state.phase rank) rank address (state.mem rank address)
  element : ∀ phase source dest index value,
    state.status phase source dest index = .flying value →
    outline.Element phase source dest index value
  ahead : ∀ phase source dest index, state.phase dest < phase →
    state.status phase source dest index ≠ .stored

theorem sound_start (outline : Outline exchange) {mem : Rank → Addr → Val}
    (initial : ∀ rank address, outline.Cell 0 rank address (mem rank address)) :
    outline.Sound (start mem) where
  cell rank address := .inr ⟨fun _ _ _ => nofun, initial rank address⟩
  element _ _ _ _ _ flying := nomatch flying
  ahead _ _ _ _ _ := nofun

/-- A cell read in its rank's phase holds what the element may carry. -/
theorem Sound.readable {outline : Outline exchange} {state : State Rank Addr Val}
    (sound : outline.Sound state) {source dest : Rank} {index : ℕ} {origin target : Addr}
    (listed : (exchange.transfers (state.phase source) source dest)[index]? =
      some (origin, target)) :
    outline.Element (state.phase source) source dest index (state.mem source origin) := by
  rcases sound.cell source origin with ⟨first, index', targets, element⟩ | ⟨_, cell⟩
  · exact outline.relay targets listed element
  · exact outline.send listed cell

/-- A cell no transfer of the phase stores to is as the outline says at the
start of the phase. -/
theorem Sound.cell_of_untargeted {outline : Outline exchange} {state : State Rank Addr Val}
    (sound : outline.Sound state) {rank : Rank} {address : Addr}
    (untargeted : ∀ source index,
      ¬ exchange.Targets (state.phase rank) source rank index address) :
    outline.Cell (state.phase rank) rank address (state.mem rank address) := by
  rcases sound.cell rank address with ⟨source, index, targets, _⟩ | ⟨_, cell⟩
  · exact absurd targets (untargeted source index)
  · exact cell

/-- Once everything sent to a rank in its phase is stored, its transfers are over. -/
theorem Sound.completed {outline : Outline exchange} {state : State Rank Addr Val}
    (sound : outline.Sound state) {rank : Rank} (stored : state.Stored exchange rank) :
    exchange.Completed outline.Cell outline.Element (state.phase rank) rank (state.mem rank) := by
  intro address
  refine (sound.cell rank address).imp_right fun ⟨pending, cell⟩ => ⟨?_, cell⟩
  intro source index targets
  obtain ⟨origin, listed⟩ := targets
  have inside := (List.getElem?_eq_some_iff.mp listed).1
  exact pending source index ⟨origin, listed⟩ (stored source index inside)

end Outline

variable [DecidableEq Rank] [DecidableEq Addr]

/-- One rank's memory becomes `mem`. -/
def State.setMem (state : State Rank Addr Val) (rank : Rank) (mem : Addr → Val) :
    State Rank Addr Val :=
  { state with mem := Function.update state.mem rank mem }

/-- One transfer's progress becomes `status`. -/
def State.setStatus (state : State Rank Addr Val) (phase : ℕ) (source dest : Rank)
    (index : ℕ) (status : Status Val) : State Rank Addr Val :=
  { state with
    status := fun phase' source' dest' index' =>
      if phase' = phase ∧ source' = source ∧ dest' = dest ∧ index' = index then status
      else state.status phase' source' dest' index' }

/-- `rank` updates its memory and enters its next phase. -/
def State.advance (state : State Rank Addr Val) (rank : Rank) (mem : Addr → Val) :
    State Rank Addr Val :=
  { state with
    phase := Function.update state.phase rank (state.phase rank + 1)
    mem := Function.update state.mem rank mem }

/-- The steps of an exchange. -/
inductive Step (exchange : Exchange Rank Addr Val) (state : State Rank Addr Val) :
    Action Rank → State Rank Addr Val → Prop where
  | read {source dest index} (origin target : Addr)
      (listed : (exchange.transfers (state.phase source) source dest)[index]? =
        some (origin, target))
      (unread : state.status (state.phase source) source dest index = .unread) :
      Step exchange state (.read source dest index)
        (state.setStatus (state.phase source) source dest index
          (.flying (state.mem source origin)))
  | store {source dest index} (origin target : Addr) (value : Val)
      (listed : (exchange.transfers (state.phase dest) source dest)[index]? =
        some (origin, target))
      (flying : state.status (state.phase dest) source dest index = .flying value) :
      Step exchange state (.store source dest index)
        ((state.setMem dest (Function.update (state.mem dest) target value)).setStatus
          (state.phase dest) source dest index .stored)
  | advance {rank} (read : state.Read exchange rank) (stored : state.Stored exchange rank) :
      Step exchange state (.advance rank)
        (state.advance rank (exchange.update (state.phase rank) rank (state.mem rank)))

/-- Runs of an exchange from initial memories that satisfy `Memory`. -/
def system (exchange : Exchange Rank Addr Val) (Memory : (Rank → Addr → Val) → Prop) :
    System (State Rank Addr Val) (Action Rank) where
  Initial state := ∃ mem, Memory mem ∧ state = start mem
  Step := Step exchange

/-- `rank` may be in phase `phase` with memory `mem`. -/
def Reaches (exchange : Exchange Rank Addr Val) (Memory : (Rank → Addr → Val) → Prop)
    (rank : Rank) (phase : ℕ) (mem : Addr → Val) : Prop :=
  ∃ state, (exchange.system Memory).Reachable state ∧ state.phase rank = phase ∧
    state.mem rank = mem

/-- `rank` may end phase `phase` with memory `mem` before its update. -/
def Completes (exchange : Exchange Rank Addr Val) (Memory : (Rank → Addr → Val) → Prop)
    (rank : Rank) (phase : ℕ) (mem : Addr → Val) : Prop :=
  ∃ state next, (exchange.system Memory).Reachable state ∧ state.phase rank = phase ∧
    state.mem rank = mem ∧ Step exchange state (.advance rank) next

/-- The transfers of a rank's earlier phases are over. -/
structure Settled (exchange : Exchange Rank Addr Val) (state : State Rank Addr Val) : Prop where
  read : ∀ phase source dest, phase < state.phase source →
    ∀ index < (exchange.transfers phase source dest).length,
      state.status phase source dest index ≠ .unread
  stored : ∀ phase source dest, phase < state.phase dest →
    ∀ index < (exchange.transfers phase source dest).length,
      state.status phase source dest index = .stored

omit [DecidableEq Rank] [DecidableEq Addr] in
theorem settled_start (exchange : Exchange Rank Addr Val) (mem : Rank → Addr → Val) :
    exchange.Settled (start mem) where
  read _ _ _ earlier := absurd earlier (Nat.not_lt_zero _)
  stored _ _ _ earlier := absurd earlier (Nat.not_lt_zero _)

omit [DecidableEq Addr] in
theorem Settled.setStatus {exchange : Exchange Rank Addr Val} {state : State Rank Addr Val}
    (settled : exchange.Settled state) {phase : ℕ} {source dest : Rank} {index : ℕ}
    {status : Status Val} (begun : status ≠ .unread)
    (current : phase < state.phase dest → status = .stored) :
    exchange.Settled (state.setStatus phase source dest index status) where
  read phase' source' dest' earlier index' inside := by
    simp only [State.setStatus]
    split
    · exact begun
    · exact settled.read phase' source' dest' earlier index' inside
  stored phase' source' dest' earlier index' inside := by
    simp only [State.setStatus]
    split
    · next same =>
        obtain ⟨rfl, rfl, rfl, rfl⟩ := same
        exact current earlier
    · exact settled.stored phase' source' dest' earlier index' inside

omit [DecidableEq Addr] in
/-- The phase a rank leaves is over. -/
theorem Settled.advance {exchange : Exchange Rank Addr Val} {state : State Rank Addr Val}
    (settled : exchange.Settled state) {rank : Rank} (read : state.Read exchange rank)
    (stored : state.Stored exchange rank) (mem : Addr → Val) :
    exchange.Settled (state.advance rank mem) where
  read phase source dest earlier index inside := by
    obtain rfl | other := eq_or_ne source rank
    · simp only [State.advance, Function.update_self] at earlier
      rcases Nat.lt_succ_iff_lt_or_eq.mp earlier with before | rfl
      · exact settled.read phase source dest before index inside
      · exact read dest index inside
    · simp only [State.advance, Function.update_of_ne other] at earlier
      exact settled.read phase source dest earlier index inside
  stored phase source dest earlier index inside := by
    obtain rfl | other := eq_or_ne dest rank
    · simp only [State.advance, Function.update_self] at earlier
      rcases Nat.lt_succ_iff_lt_or_eq.mp earlier with before | rfl
      · exact settled.stored phase source dest before index inside
      · exact stored source index inside
    · simp only [State.advance, Function.update_of_ne other] at earlier
      exact settled.stored phase source dest earlier index inside

theorem settled_step {exchange : Exchange Rank Addr Val} {state next : State Rank Addr Val}
    {action : Action Rank} (settled : exchange.Settled state)
    (taken : Step exchange state action next) : exchange.Settled next := by
  cases taken with
  | @read source dest index origin target listed unread =>
      refine settled.setStatus nofun fun earlier => ?_
      have stored := settled.stored _ _ _ earlier index (List.getElem?_eq_some_iff.mp listed).1
      rw [unread] at stored
      cases stored
  | @store source dest index =>
      have same : exchange.Settled
          (state.setStatus (state.phase dest) source dest index .stored) :=
        settled.setStatus nofun fun _ => rfl
      exact ⟨same.read, same.stored⟩
  | advance read stored => exact settled.advance read stored _

theorem settled_of_reachable {exchange : Exchange Rank Addr Val}
    {Memory : (Rank → Addr → Val) → Prop} {state : State Rank Addr Val}
    (reachable : (exchange.system Memory).Reachable state) : exchange.Settled state := by
  refine reachable.invariant (P := exchange.Settled) ?_ settled_step
  rintro _ ⟨mem, _, rfl⟩
  exact settled_start exchange mem

omit [DecidableEq Rank] [DecidableEq Addr] in
/-- An element still to be read belongs to the current phase of its source or a
later one. -/
theorem Settled.phase_le_of_unread {exchange : Exchange Rank Addr Val}
    {state : State Rank Addr Val} (settled : exchange.Settled state) {phase : ℕ}
    {source dest : Rank} {index : ℕ}
    (inside : index < (exchange.transfers phase source dest).length)
    (unread : state.status phase source dest index = .unread) : state.phase source ≤ phase :=
  Nat.le_of_not_lt fun earlier => settled.read phase source dest earlier index inside unread

omit [DecidableEq Rank] [DecidableEq Addr] in
/-- An element still to be stored belongs to the current phase of its destination
or a later one. -/
theorem Settled.phase_le_of_pending {exchange : Exchange Rank Addr Val}
    {state : State Rank Addr Val} (settled : exchange.Settled state) {phase : ℕ}
    {source dest : Rank} {index : ℕ}
    (inside : index < (exchange.transfers phase source dest).length)
    (pending : state.status phase source dest index ≠ .stored) : state.phase dest ≤ phase :=
  Nat.le_of_not_lt fun earlier =>
    pending (settled.stored phase source dest earlier index inside)

namespace Outline

variable {exchange : Exchange Rank Addr Val}

omit [DecidableEq Addr] in
theorem setStatus_stored_iff {state : State Rank Addr Val} {phase : ℕ} {source dest : Rank}
    {index : ℕ} (unread : state.status phase source dest index = .unread) (value : Val)
    (phase' : ℕ) (source' dest' : Rank) (index' : ℕ) :
    (state.setStatus phase source dest index (.flying value)).status phase' source' dest'
      index' = .stored ↔ state.status phase' source' dest' index' = .stored := by
  simp only [State.setStatus]
  split
  · next same =>
      obtain ⟨rfl, rfl, rfl, rfl⟩ := same
      simp [unread]
  · exact Iff.rfl

namespace Sound

variable {outline : Outline exchange} {state : State Rank Addr Val}

omit [DecidableEq Addr] in
theorem read (sound : outline.Sound state) {source dest : Rank} {index : ℕ}
    {origin target : Addr}
    (listed : (exchange.transfers (state.phase source) source dest)[index]? =
      some (origin, target))
    (unread : state.status (state.phase source) source dest index = .unread) :
    outline.Sound (state.setStatus (state.phase source) source dest index
      (.flying (state.mem source origin))) where
  cell rank address := by
    refine (sound.cell rank address).imp_right fun ⟨pending, cell⟩ => ⟨?_, cell⟩
    intro first index' targets
    exact mt (setStatus_stored_iff unread _ _ _ _ _).mp (pending first index' targets)
  element phase source' dest' index' value flying := by
    simp only [State.setStatus] at flying
    split at flying
    · next same =>
        obtain ⟨rfl, rfl, rfl, rfl⟩ := same
        obtain rfl := Status.flying.inj flying
        exact sound.readable listed
    · exact sound.element _ _ _ _ _ flying
  ahead phase source' dest' index' later :=
    mt (setStatus_stored_iff unread _ _ _ _ _).mp (sound.ahead phase source' dest' index' later)

/-- A stored element is at its target, and at no other address of the rank. -/
theorem store_cell (sound : outline.Sound state) {source dest : Rank} {index : ℕ}
    {origin target : Addr} {value : Val}
    (listed : (exchange.transfers (state.phase dest) source dest)[index]? = some (origin, target))
    (flying : state.status (state.phase dest) source dest index = .flying value)
    (address : Addr) :
    let held := Function.update (state.mem dest) target value address
    (∃ source' index', exchange.Targets (state.phase dest) source' dest index' address ∧
      outline.Element (state.phase dest) source' dest index' held) ∨
    (∀ source' index', exchange.Targets (state.phase dest) source' dest index' address →
      (state.setStatus (state.phase dest) source dest index .stored).status (state.phase dest)
        source' dest index' ≠ .stored) ∧
      outline.Cell (state.phase dest) dest address held := by
  obtain rfl | other := eq_or_ne address target
  · refine .inl ⟨source, index, ⟨origin, listed⟩, ?_⟩
    rw [Function.update_self]
    exact sound.element _ _ _ _ _ flying
  · rw [Function.update_of_ne other]
    refine (sound.cell dest address).imp_right fun ⟨pending, cell⟩ => ⟨?_, cell⟩
    intro source' index' targets
    simp only [State.setStatus]
    split
    · next same =>
        obtain ⟨-, rfl, -, rfl⟩ := same
        obtain ⟨origin', listed'⟩ := targets
        rw [listed] at listed'
        exact absurd (Prod.mk.inj (Option.some.inj listed')).2.symm other
    · exact pending source' index' targets

theorem store (sound : outline.Sound state) {source dest : Rank} {index : ℕ}
    {origin target : Addr} {value : Val}
    (listed : (exchange.transfers (state.phase dest) source dest)[index]? = some (origin, target))
    (flying : state.status (state.phase dest) source dest index = .flying value) :
    outline.Sound ((state.setMem dest (Function.update (state.mem dest) target value)).setStatus
      (state.phase dest) source dest index .stored) where
  cell rank address := by
    obtain rfl | other := eq_or_ne rank dest
    · simpa [State.setMem, State.setStatus] using sound.store_cell listed flying address
    · simp only [State.setMem, State.setStatus, Function.update_of_ne other, other, false_and,
        and_false, if_false]
      exact sound.cell rank address
  element phase source' dest' index' value' flying' := by
    simp only [State.setStatus] at flying'
    split at flying'
    · cases flying'
    · exact sound.element _ _ _ _ _ flying'
  ahead phase source' dest' index' later := by
    simp only [State.setStatus]
    split
    · next same =>
        obtain ⟨rfl, rfl, rfl, rfl⟩ := same
        exact absurd later (Nat.lt_irrefl _)
    · exact sound.ahead phase source' dest' index' later

omit [DecidableEq Addr] in
theorem advance (sound : outline.Sound state) {rank : Rank}
    (stored : state.Stored exchange rank) :
    outline.Sound (state.advance rank
      (exchange.update (state.phase rank) rank (state.mem rank))) where
  cell other address := by
    obtain rfl | different := eq_or_ne other rank
    · simp only [State.advance, Function.update_self]
      refine .inr ⟨fun source index _ => sound.ahead _ _ _ _ (Nat.lt_succ_self _), ?_⟩
      exact outline.update (sound.completed stored) address
    · simp only [State.advance, Function.update_of_ne different]
      exact sound.cell other address
  element := sound.element
  ahead phase source dest index later := by
    refine sound.ahead phase source dest index (Nat.lt_of_le_of_lt ?_ later)
    obtain rfl | different := eq_or_ne dest rank
    · simp [State.advance]
    · simp [State.advance, different]

end Sound

theorem sound_step (outline : Outline exchange) {state next : State Rank Addr Val}
    {action : Action Rank} (sound : outline.Sound state)
    (taken : Step exchange state action next) : outline.Sound next := by
  cases taken with
  | read _ _ listed unread => exact sound.read listed unread
  | store _ _ _ listed flying => exact sound.store listed flying
  | advance _ stored => exact sound.advance stored

/-- A sound outline holds in every reachable state. -/
theorem sound_of_reachable (outline : Outline exchange)
    {Memory : (Rank → Addr → Val) → Prop}
    (initial : ∀ mem, Memory mem → ∀ rank address, outline.Cell 0 rank address (mem rank address))
    {state : State Rank Addr Val} (reachable : (exchange.system Memory).Reachable state) :
    outline.Sound state := by
  refine reachable.invariant (P := outline.Sound) ?_ ?_
  · rintro _ ⟨mem, valid, rfl⟩
    exact outline.sound_start (initial mem valid)
  · intro state action next sound taken
    exact outline.sound_step sound taken

/-- A rank that may end a phase has its transfers behind it. -/
theorem completed_of_completes (outline : Outline exchange)
    {Memory : (Rank → Addr → Val) → Prop}
    (initial : ∀ mem, Memory mem → ∀ rank address, outline.Cell 0 rank address (mem rank address))
    {rank : Rank} {phase : ℕ} {mem : Addr → Val}
    (completes : exchange.Completes Memory rank phase mem) :
    exchange.Completed outline.Cell outline.Element phase rank mem := by
  obtain ⟨state, next, reachable, rfl, rfl, taken⟩ := completes
  cases taken with
  | advance _ stored => exact (outline.sound_of_reachable initial reachable).completed stored

end Outline

end Exchange

/-- Where the ranks that are furthest behind can always go on, no state is a deadlock. -/
theorem neverStuck_of_behind {State Action : Type*} {Rank : Type u} [Finite Rank]
    {system : System State Action} {phase : State → Rank → ℕ} {phases : ℕ}
    (progress : ∀ {state last}, system.Reachable state → phase state last < phases →
      (∀ rank, phase state last ≤ phase state rank) →
        ∃ action next, system.Step state action next) :
    system.NeverStuck fun state => ∃ rank, phase state rank < phases := by
  intro state reachable unfinished
  obtain ⟨ahead, remaining⟩ := unfinished
  have : Nonempty Rank := ⟨ahead⟩
  obtain ⟨last, minimal⟩ := Finite.exists_min (phase state)
  exact progress reachable (Nat.lt_of_le_of_lt (minimal ahead) remaining) minimal

end HandsOn.Mpi
