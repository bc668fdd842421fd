import HandsOn.Mutex.Fairness
import HandsOn.Semantics.LeadsTo

/-!
# Freedom from starvation

A call that has executed its epoch returns, if no process stops for ever in a call or inside. The
token needs one step of one process at a time to go on, its mover: nobody else can take the token
from the mover or keep it from its step. The steps of movers bring the token to an unlock epoch,
which brings it nearer to each process that is pending.
-/

namespace HandsOn.Mutex

open HandsOn.Semantics

variable {nprocs : ℕ} {homerank : Fin nprocs} {state next : State nprocs} {token : Token nprocs}
  {action : Action nprocs} {rank holder patient : Fin nprocs} {bound : ℕ}

/-- A step of `rank` in a call that has executed its epoch, or from inside. -/
def Continues (rank : Fin nprocs) : Action nprocs → Prop
  | .lockEpoch _ => False
  | .lockTest actor | .lockRecv actor _ | .unlockEpoch actor | .unlockTest actor
  | .unlockSend actor => actor = rank

instance (rank : Fin nprocs) : DecidablePred (Continues rank) := fun action => by
  cases action <;> unfold Continues <;> infer_instance

theorem enabled_of_isSome (action : Action nprocs) (own : Continues rank action)
    (some : (step homerank state action).isSome) :
    System.Execution.Enabled (system homerank) (Continues rank) state :=
  (Option.isSome_iff_exists.mp some).elim fun next taken => ⟨action, next, own, taken⟩

/-- A process that is in a call or inside can go on, unless it waits for a message. -/
theorem TokenInv.continues (inv : TokenInv homerank state token) (rank : Fin nprocs)
    (busy : state.pc rank ≠ .outside)
    (woken : state.pc rank = .lockRecv → ∃ source, ⟨source, rank⟩ ∈ state.wakeups) :
    System.Execution.Enabled (system homerank) (Continues rank) state := by
  have test : ∀ copy, (state.pc rank).copy? = some copy →
      ∃ i, firstWaiter nprocs copy = some i := fun copy here =>
    (firstWaiter_spec ((inv.standing rank).copy copy here)).imp fun _ found => found.1
  cases here : state.pc rank with
  | outside => exact absurd here busy
  | lockTest copy =>
      obtain ⟨i, found⟩ := test copy (by rw [here]; rfl)
      exact enabled_of_isSome (.lockTest rank) rfl (by simp [step, here, found])
  | lockRecv =>
      obtain ⟨source, flies⟩ := woken here
      exact enabled_of_isSome (.lockRecv rank source) rfl (by simp [step, here, flies])
  | inside => exact enabled_of_isSome (.unlockEpoch rank) rfl (by simp [step, here])
  | unlockTest copy =>
      obtain ⟨i, found⟩ := test copy (by rw [here]; rfl)
      have length := (inv.standing rank).copy copy (by rw [here]; rfl)
      refine enabled_of_isSome (.unlockTest rank) rfl ?_
      by_cases waiting : i < nprocs - 1
      · obtain ⟨other, different, nonzero⟩ :=
          (TokenInv.test_iff_sawWaiter rank length found).mp waiting
        obtain ⟨next, chosen, _⟩ := nextrank_spec rank.isLt length
          ⟨other, other.isLt, fun same => different (Fin.ext same), nonzero⟩
        simp [step, here, found, waiting, chosen]
      · simp [step, here, found, waiting]
  | unlockSend dest =>
      have valid := (inv.standing rank).next dest here
      exact enabled_of_isSome (.unlockSend rank) rfl (by simp [step, here, valid])

/-- A step of another process leaves where a process is. -/
theorem pc_of_not_continues (taken : step homerank state action = some next)
    (other : ¬ Continues rank action) (busy : state.pc rank ≠ .outside) :
    next.pc rank = state.pc rank := by
  have moved : ∀ {actor : Fin nprocs} {pc : Pc} {middle : State nprocs}, middle.pc = state.pc →
      actor ≠ rank → (middle.setPc actor pc).pc rank = state.pc rank := by
    intro actor pc middle same apart
    rw [setPc_pc_of_ne _ _ apart.symm, same]
  cases stepped_of_step taken with
  | @lockEpoch actor here =>
      refine moved rfl ?_
      rintro rfl
      exact busy here
  | lockTest | unlockEpoch | unlockNone | unlockNext => exact moved rfl other
  | lockRecv | unlockSend => exact moved rfl other

/-! ### The mover -/

/-- The process whose step the token needs to go on. -/
def Token.mover : Token nprocs → Option (Fin nprocs)
  | .absent => none
  | .owned rank | .signalling rank => some rank
  | .flying wakeup => some wakeup.dest

/-- How many steps of movers there are before the next unlock epoch, at most. -/
def Pc.stage : Pc → ℕ
  | .outside | .inside => 0
  | .lockRecv => 1
  | .lockTest _ => 2
  | .unlockSend _ => 3
  | .unlockTest _ => 4

theorem Pc.stage_of_waits {pc : Pc} (waits : pc.Waits rank) : pc.stage < 3 := by
  cases pc with
  | lockTest => exact Nat.lt_succ_self 2
  | lockRecv => exact Nat.succ_lt_succ (Nat.succ_pos 1)
  | _ => exact waits.elim

/-- In `MPIMUTEX_Unlock` after its epoch. -/
def Pc.Leaving : Pc → Prop
  | .unlockTest _ | .unlockSend _ => True
  | _ => False

/-- The mover has something to do. -/
theorem TokenInv.mover_busy (inv : TokenInv homerank state token)
    (moves : token.mover = some holder) :
    state.pc holder ≠ .outside ∧
      (state.pc holder = .lockRecv → ∃ source, ⟨source, holder⟩ ∈ state.wakeups) := by
  cases place : token with
  | absent =>
      rw [place] at moves
      cases moves
  | owned rank =>
      rw [place] at moves
      cases moves
      have owns := (inv.standing holder).owns.mpr place
      constructor <;> intro here <;> simp [here, Pc.Owns] at owns
  | signalling rank =>
      rw [place] at moves
      cases moves
      have signals := (inv.standing holder).signals.mpr place
      constructor <;> intro here <;> simp [here, Pc.Signals] at signals
  | flying wakeup =>
      rw [place] at moves
      cases moves
      have flies : wakeup ∈ state.wakeups := by simp [inv.wakeups, place, Token.wakeups]
      have waits := inv.flying wakeup flies
      refine ⟨fun here => ?_, fun _ => ⟨wakeup.source, flies⟩⟩
      simp [here, Pc.Waits] at waits

/-- Another process's step leaves the token with its mover. -/
theorem TokenInv.stays (inv : TokenInv homerank state token) (moves : token.mover = some holder)
    (taken : step homerank state action = some next) (other : ¬ Continues holder action) :
    TokenInv homerank next token ∧ ∀ owner, action ≠ .unlockEpoch owner := by
  have apart : ∀ {actor : Fin nprocs}, token.mover = some actor → ¬ actor = holder → False := by
    intro actor moves' apart
    exact apart (Option.some.inj (moves'.symm.trans moves))
  cases stepped_of_step taken with
  | @lockEpoch actor here =>
      have somewhere : token ≠ .absent := by
        rintro rfl
        cases moves
      have inv' := inv.lockEpoch here
      rw [if_neg somewhere] at inv'
      exact ⟨inv', by rintro _ ⟨⟩⟩
  | lockTest here found => exact ⟨inv.lockTest here found, by rintro _ ⟨⟩⟩
  | @lockRecv actor source here flies =>
      have place : token = .flying ⟨source, actor⟩ := by
        rw [inv.wakeups] at flies
        cases token <;> simp_all [Token.wakeups]
      exact (apart (by rw [place]; rfl) other).elim
  | @unlockEpoch actor here =>
      have place := (inv.standing actor).owns.mp (by rw [here]; trivial)
      exact (apart (by rw [place]; rfl) other).elim
  | unlockNone here found none => exact ⟨inv.unlockNone here found none, by rintro _ ⟨⟩⟩
  | unlockNext here found some chosen =>
      exact ⟨inv.unlockNext here found some chosen, by rintro _ ⟨⟩⟩
  | @unlockSend actor dest here =>
      have place := (inv.standing actor).signals.mp (by rw [here]; trivial)
      exact (apart (by rw [place]; rfl) other).elim

/-- A mover that tests its copy to leave has seen a waiter. -/
theorem TokenInv.sawWaiter_of_mover {copy : List UInt8} (inv : TokenInv homerank state token)
    (moves : token.mover = some holder) (here : state.pc holder = .unlockTest copy) :
    SawWaiter holder copy := by
  cases place : token with
  | absent =>
      rw [place] at moves
      cases moves
  | owned rank =>
      rw [place] at moves
      cases moves
      have owns := (inv.standing holder).owns.mpr place
      rw [here] at owns
      exact owns.elim
  | signalling rank =>
      rw [place] at moves
      cases moves
      have signals := (inv.standing holder).signals.mpr place
      rwa [here] at signals
  | flying wakeup =>
      rw [place] at moves
      cases moves
      have waits := inv.flying wakeup (by simp [inv.wakeups, place, Token.wakeups])
      rw [here] at waits
      exact waits.elim

/-! ### Towards a pending process -/

/-- The token is with its mover and heads for ranks at most `bound` before `patient`, which is
pending. -/
structure Heading (homerank patient : Fin nprocs) (token : Token nprocs) (holder : Fin nprocs)
    (bound : ℕ) (state : State nprocs) : Prop where
  inv : TokenInv homerank state token
  mover : token.mover = some holder
  near : ∀ target, state.HeadsFor token target → cyclicDistance nprocs target patient ≤ bound
  pending : (state.pc patient).Pending

/-- The token comes to `patient` in less than `measure` steps of movers. -/
def Coming (homerank patient : Fin nprocs) (measure : ℕ) (state : State nprocs) : Prop :=
  ∃ token holder bound, Heading homerank patient token holder bound state ∧
    measure = 5 * bound + (state.pc holder).stage

/-- A step that is no unlock epoch keeps the heading, wherever the token goes, unless `patient`
enters. -/
theorem Heading.kept {token' : Token nprocs} {holder' : Fin nprocs}
    (heading : Heading homerank patient token holder bound state)
    (taken : step homerank state action = some next) (inv' : TokenInv homerank next token')
    (moves' : token'.mover = some holder') (quiet : ∀ owner, action ≠ .unlockEpoch owner) :
    next.pc patient = .inside ∨ Heading homerank patient token' holder' bound next := by
  by_cases enters : Enters patient ⟨state, action, next⟩ = true
  · exact .inl (of_decide_eq_true enters).2
  · refine .inr ⟨inv', moves', fun target heads => ?_, pending_step taken heading.pending enters⟩
    rcases headsFor_step heading.inv inv' taken heading.pending heads with ⟨_, before⟩ | epoch
    · exact heading.near target before
    · obtain ⟨owner, same, _⟩ := epoch
      exact absurd same (quiet owner)

/-- The unlock epoch of the owner brings the token nearer. -/
theorem Heading.unlockEpoch (heading : Heading homerank patient token holder bound state)
    (here : state.pc holder = .inside)
    (taken : step homerank state (.unlockEpoch holder) = some next) :
    ∃ less < 5 * bound, Coming homerank patient less next := by
  have inv := heading.inv
  have pending := heading.pending
  have apart : patient ≠ holder := by
    rintro rfl
    rw [here] at pending
    exact pending
  have apart' : (patient : ℕ) ≠ holder := fun same => apart (Fin.ext same)
  have place : token = .owned holder := (inv.standing holder).owns.mp (by rw [here]; trivial)
  have saw : SawWaiter holder (state.get homerank holder) :=
    ⟨patient, apart, (inv.entry_get apart).mpr (Pc.waits_or_owns_of_pending patient pending)⟩
  have inv' := inv.unlockEpoch here
  rw [if_pos saw] at inv'
  cases stepped_of_step taken with
  | unlockEpoch =>
      have distance : cyclicDistance nprocs holder patient ≤ bound :=
        heading.near holder (by rw [place]; rfl)
      have positive : 0 < cyclicDistance nprocs holder patient := by
        have inside := holder.isLt
        rw [cyclicDistance]
        split <;> omega
      refine ⟨5 * (bound - 1) + 4, by omega, .signalling holder, holder, bound - 1,
        ⟨inv', rfl, fun target heads => ?_, ?_⟩, ?_⟩
      · rcases headsFor_step inv inv' taken pending heads with ⟨quiet, _⟩ | ⟨owner, same, nearer⟩
        · exact absurd rfl (quiet holder)
        · cases same
          omega
      · rw [setPc_pc_of_ne _ _ apart]
        exact pending
      · rw [setPc_pc_self]
        rfl

/-- A step of the mover brings the token nearer. -/
theorem Heading.advance (heading : Heading homerank patient token holder bound state)
    (taken : step homerank state action = some next) (own : Continues holder action) :
    next.pc patient = .inside ∨
      ∃ less < 5 * bound + (state.pc holder).stage, Coming homerank patient less next := by
  have closer : ∀ {token' : Token nprocs} {holder' : Fin nprocs}, TokenInv homerank next token' →
      token'.mover = some holder' → (∀ owner, action ≠ .unlockEpoch owner) →
      (next.pc holder').stage < (state.pc holder).stage →
      next.pc patient = .inside ∨
        ∃ less < 5 * bound + (state.pc holder).stage, Coming homerank patient less next :=
    fun inv' moves' quiet less => (heading.kept taken inv' moves' quiet).imp_right fun heading' =>
      ⟨_, Nat.add_lt_add_left less _, _, _, _, heading', rfl⟩
  have inv := heading.inv
  cases stepped_of_step taken with
  | lockEpoch here => exact own.elim
  | @lockTest actor copy i here found =>
      cases own
      refine closer (inv.lockTest here found) heading.mover (by rintro _ ⟨⟩) ?_
      rw [setPc_pc_self, here]
      split
      · exact Nat.lt_succ_self 1
      · exact Nat.succ_pos 1
  | @lockRecv actor source here flies =>
      cases own
      refine closer (inv.lockRecv here flies) rfl (by rintro _ ⟨⟩) ?_
      rw [here]
      change ((state.setPc holder .inside).pc holder).stage < _
      rw [setPc_pc_self]
      exact Nat.one_pos
  | @unlockEpoch actor here =>
      cases own
      obtain ⟨less, below, coming⟩ := heading.unlockEpoch here taken
      exact .inr ⟨less, Nat.lt_add_right _ below, coming⟩
  | @unlockNone actor copy i here found none =>
      cases own
      have length := (inv.standing holder).copy copy (by rw [here]; rfl)
      exact absurd ((TokenInv.test_iff_sawWaiter holder length found).mpr
        (inv.sawWaiter_of_mover heading.mover here)) none
  | @unlockNext actor copy i chosen here found some search =>
      cases own
      refine closer (inv.unlockNext here found some search) heading.mover (by rintro _ ⟨⟩) ?_
      rw [setPc_pc_self, here]
      exact Nat.lt_succ_self 3
  | @unlockSend actor dest here =>
      cases own
      have inv' := inv.unlockSend here
      refine closer inv' rfl (by rintro _ ⟨⟩) ?_
      rw [here]
      -- The process that is woken up is still waiting.
      have waits := inv'.flying ⟨holder, dest⟩ (List.mem_append_right _ (List.mem_singleton_self _))
      exact Pc.stage_of_waits waits

/-! ### Every fair run -/

section Fair

variable {execution : (system homerank).Execution}
  (fair : ∀ rank, execution.WeaklyFair (Continues rank))
include fair

/-- The mover takes its step, and meanwhile nobody disturbs it. -/
theorem heading_leadsTo (patient : Fin nprocs) (token : Token nprocs) (holder : Fin nprocs)
    (bound : ℕ) (pc : Pc) :
    execution.LeadsTo
      (fun state => Heading homerank patient token holder bound state ∧ state.pc holder = pc)
      fun state => state.pc patient = .inside ∨
        ∃ less < 5 * bound + pc.stage, Coming homerank patient less state := by
  refine System.Execution.leadsTo_of_fair (fair holder) ?_ ?_ ?_
  · rintro state _ ⟨heading, _⟩
    obtain ⟨busy, woken⟩ := heading.inv.mover_busy heading.mover
    exact heading.inv.continues holder busy woken
  · rintro state action next _ ⟨heading, rfl⟩ taken own
    exact heading.advance taken own
  · rintro state action next _ ⟨heading, rfl⟩ taken other
    obtain ⟨inv', quiet⟩ := heading.inv.stays heading.mover taken other
    have same := pc_of_not_continues taken other (heading.inv.mover_busy heading.mover).1
    rcases heading.kept taken inv' heading.mover quiet with inside | heading'
    · exact .inr (.inl inside)
    · exact .inl ⟨heading', same⟩

theorem coming_leadsTo (patient : Fin nprocs) (measure : ℕ) :
    execution.LeadsTo (Coming homerank patient measure) fun state =>
      state.pc patient = .inside := by
  refine System.Execution.leadsTo_of_smaller (fun measure n coming => ?_) measure
  obtain ⟨token, holder, bound, heading, rfl⟩ := coming
  exact heading_leadsTo fair patient token holder bound _ n ⟨heading, rfl⟩

/-- A process that has set its byte in `MPIMUTEX_Lock` enters. -/
theorem lock_leadsTo (patient : Fin nprocs) :
    execution.LeadsTo (fun state => (state.pc patient).Pending) fun state =>
      state.pc patient = .inside := by
  intro n pending
  obtain ⟨token, inv⟩ := TokenInv.of_reachable (execution.reachable n)
  have somewhere := inv.somewhere pending
  obtain ⟨holder, moves⟩ : ∃ holder, token.mover = some holder := by
    cases token with
    | absent => exact absurd rfl somewhere
    | owned rank | signalling rank => exact ⟨rank, rfl⟩
    | flying wakeup => exact ⟨wakeup.dest, rfl⟩
  refine coming_leadsTo fair patient _ n ⟨token, holder, nprocs, ⟨inv, moves, ?_, pending⟩, rfl⟩
  intro target _
  have inside := target.isLt
  have inside' := patient.isLt
  rw [cyclicDistance]
  split <;> omega

/-- A process in `MPIMUTEX_Unlock` that has cleared its byte returns. -/
theorem unlock_leadsTo (rank : Fin nprocs) :
    execution.LeadsTo (fun state => (state.pc rank).Leaving) fun state =>
      state.pc rank = .outside := by
  have advances : ∀ pc : Pc, execution.LeadsTo
      (fun state => (state.pc rank).Leaving ∧ state.pc rank = pc) fun state =>
        state.pc rank = .outside ∨
          ∃ less < pc.stage, (state.pc rank).Leaving ∧ (state.pc rank).stage = less := by
    intro pc
    refine System.Execution.leadsTo_of_fair (fair rank) ?_ ?_ ?_
    · rintro state reachable ⟨leaving, _⟩
      obtain ⟨token, inv⟩ := TokenInv.of_reachable reachable
      refine inv.continues rank ?_ fun here => ?_
      · intro here
        rw [here] at leaving
        exact leaving
      · rw [here] at leaving
        exact leaving.elim
    · rintro state action next _ ⟨leaving, rfl⟩ taken own
      cases stepped_of_step taken with
      | lockEpoch here => exact own.elim
      | lockTest here _ | lockRecv here _ | unlockEpoch here =>
          cases own
          rw [here] at leaving
          exact leaving.elim
      | @unlockNone actor copy i here found none =>
          cases own
          exact .inl (setPc_pc_self state rank _)
      | @unlockNext actor copy i chosen here found some search =>
          cases own
          rw [setPc_pc_self, here]
          exact .inr ⟨3, Nat.lt_succ_self 3, trivial, rfl⟩
      | @unlockSend actor dest here =>
          cases own
          exact .inl (setPc_pc_self state rank _)
    · rintro state action next _ ⟨leaving, rfl⟩ taken other
      have busy : state.pc rank ≠ .outside := by
        intro here
        rw [here] at leaving
        exact leaving
      have same := pc_of_not_continues taken other busy
      exact .inl ⟨same ▸ leaving, same⟩
  have ends : ∀ measure, execution.LeadsTo
      (fun state => (state.pc rank).Leaving ∧ (state.pc rank).stage = measure) fun state =>
        state.pc rank = .outside := by
    refine System.Execution.leadsTo_of_smaller fun measure m here => ?_
    obtain ⟨leaving, rfl⟩ := here
    exact advances _ m ⟨leaving, rfl⟩
  intro n leaving
  exact ends _ n ⟨leaving, rfl⟩

end Fair

/-- In every fair run, every call of `MPIMUTEX_Lock` and of `MPIMUTEX_Unlock` that has executed its
epoch returns: no process starves, however the others call. -/
theorem calls_return (execution : (system homerank).Execution)
    (fair : ∀ rank, execution.WeaklyFair (Continues rank)) (rank : Fin nprocs) :
    execution.LeadsTo (fun state => (state.pc rank).Pending) (fun state =>
        state.pc rank = .inside) ∧
      execution.LeadsTo (fun state => (state.pc rank).Leaving) fun state =>
        state.pc rank = .outside :=
  ⟨lock_leadsTo fair rank, unlock_leadsTo fair rank⟩

/-- Nothing is to be done by a process outside. -/
theorem not_enabled_of_outside (outside : state.pc rank = .outside) :
    ¬ System.Execution.Enabled (system homerank) (Continues rank) state := by
  rintro ⟨action, next, own, taken⟩
  cases stepped_of_step taken with
  | lockEpoch => exact own
  | lockTest here | lockRecv here | unlockEpoch here | unlockNone here | unlockNext here
  | unlockSend _ here =>
      cases own
      rw [outside] at here
      cases here

/-! Rank 1 waits for rank 0, and both leave. -/

private def zeroth : Fin 2 := ⟨0, Nat.zero_lt_two⟩

private def other : Fin 2 := ⟨1, Nat.one_lt_two⟩

private def turnsActions : List (Action 2) :=
  [.lockEpoch zeroth, .lockTest zeroth, .lockEpoch other, .lockTest other, .unlockEpoch zeroth,
    .unlockTest zeroth, .unlockSend zeroth, .lockRecv other zeroth, .unlockEpoch other,
    .unlockTest other]

private def turns : (system zeroth).Execution :=
  .ofActions rfl turnsActions (by decide +kernel)

theorem calls_return_two : ∃ m, 4 ≤ m ∧ (turns.state m).pc other = .inside :=
  (calls_return turns (fun rank => System.Execution.weaklyFair_of_finished
    (not_enabled_of_outside (by revert rank; decide +kernel))) other).1 4 (by
      have here : (turns.state 4).pc other = .lockRecv := by decide +kernel
      change ((turns.state 4).pc other).Pending
      rw [here]
      trivial)

end HandsOn.Mutex
