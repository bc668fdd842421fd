import HandsOn.Mpi.Exchange

/-!
# Exchanges in step

Where nothing that a phase transfers is read from or stored to twice, the ranks compute what they
would in step: each phase transfers what the memories hold at its start, all at once.
-/

namespace HandsOn.Mpi.Exchange

universe u v w

variable {Rank : Type u} {Addr : Type v} {Val : Type w} (exchange : Exchange Rank Addr Val)

/-- A phase transfers the value at `origin` of `source` to `address` of `dest`. -/
def Transfers (phase : ℕ) (source dest : Rank) (origin address : Addr) : Prop :=
  ∃ index : ℕ, (exchange.transfers phase source dest)[index]? = some (origin, address)

/-- The transfers of a phase do not disturb each other. -/
structure Separate (phase : ℕ) : Prop where
  apart : ∀ {first source dest origin middle address},
    exchange.Transfers phase first source origin middle →
      ¬ exchange.Transfers phase source dest middle address
  single : ∀ {source source' dest origin origin' address},
    exchange.Transfers phase source dest origin address →
    exchange.Transfers phase source' dest origin' address → source = source' ∧ origin = origin'

open Classical in
/-- The memories once the transfers of a phase are over. -/
noncomputable def arrived (phase : ℕ) (memory : Rank → Addr → Val) : Rank → Addr → Val :=
  fun rank address =>
    if transferred : ∃ place : Rank × Addr,
        exchange.Transfers phase place.1 rank place.2 address then
      memory transferred.choose.1 transferred.choose.2
    else memory rank address

/-- The memories at the start of each phase. -/
noncomputable def inStep (memory : Rank → Addr → Val) : ℕ → Rank → Addr → Val
  | 0 => memory
  | phase + 1 => fun rank =>
      exchange.update phase rank (exchange.arrived phase (inStep memory phase) rank)

variable {exchange} {phase : ℕ} {memory : Rank → Addr → Val} {rank source : Rank}
  {origin address : Addr}

theorem Separate.arrived_eq (separate : exchange.Separate phase)
    (moves : exchange.Transfers phase source rank origin address) :
    exchange.arrived phase memory rank address = memory source origin := by
  have transferred : ∃ place : Rank × Addr,
      exchange.Transfers phase place.1 rank place.2 address := ⟨(source, origin), moves⟩
  obtain ⟨sameRank, sameOrigin⟩ := separate.single transferred.choose_spec moves
  rw [arrived, dif_pos transferred, sameRank, sameOrigin]

theorem arrived_of_kept
    (kept : ∀ source origin, ¬ exchange.Transfers phase source rank origin address) :
    exchange.arrived phase memory rank address = memory rank address :=
  dif_neg fun ⟨place, moves⟩ => kept place.1 place.2 moves

/-- What a cell holds in step. -/
def CellInStep (exchange : Exchange Rank Addr Val) (memory : Rank → Addr → Val) (phase : ℕ)
    (rank : Rank) (address : Addr) (value : Val) : Prop :=
  value = exchange.inStep memory phase rank address

/-- What a transfer carries in step. -/
def ElementInStep (exchange : Exchange Rank Addr Val) (memory : Rank → Addr → Val) (phase : ℕ)
    (source dest : Rank) (index : ℕ) (value : Val) : Prop :=
  ∃ origin address, (exchange.transfers phase source dest)[index]? = some (origin, address) ∧
    value = exchange.inStep memory phase source origin

theorem Separate.eq_arrived (separate : exchange.Separate phase) {mem : Addr → Val}
    (completed : exchange.Completed (exchange.CellInStep memory) (exchange.ElementInStep memory)
      phase rank mem) :
    mem = exchange.arrived phase (exchange.inStep memory phase) rank := by
  ext address
  rcases completed address with ⟨source, index, ⟨_, listed⟩, _, _, listed', held⟩ | ⟨kept, held⟩
  · cases listed.symm.trans listed'
    rw [held, separate.arrived_eq ⟨index, listed⟩]
  · rw [held]
    exact (arrived_of_kept fun source origin ⟨index, listed⟩ => kept source index ⟨_, listed⟩).symm

/-- No value that a phase transfers is overwritten before it is read. -/
def inStepOutline (separate : ∀ phase, exchange.Separate phase) (memory : Rank → Addr → Val) :
    Outline exchange where
  Cell := exchange.CellInStep memory
  Element := exchange.ElementInStep memory
  send listed held := ⟨_, _, listed, held⟩
  relay targeted listed _ := by
    obtain ⟨origin, stored⟩ := targeted
    exact absurd ⟨_, listed⟩ ((separate _).apart ⟨_, stored⟩)
  update completed address := by
    rw [(separate _).eq_arrived completed]
    rfl

/-- Whatever the order of the transfers, a rank ends each phase as it does in step. -/
theorem eq_arrived_of_completes [DecidableEq Rank] [DecidableEq Addr]
    (separate : ∀ phase, exchange.Separate phase) {mem : Addr → Val}
    (completes : exchange.Completes (· = memory) rank phase mem) :
    mem = exchange.arrived phase (exchange.inStep memory phase) rank := by
  refine (separate phase).eq_arrived
    ((inStepOutline separate memory).completed_of_completes ?_ completes)
  rintro _ rfl rank address
  exact rfl

end HandsOn.Mpi.Exchange
