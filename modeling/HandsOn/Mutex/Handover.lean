import Mathlib.Data.Fintype.Card
import HandsOn.Mutex.Token

/-!
# Mutual exclusion, and no wake-up lost or stranded

`State.holders` counts the processes and messages the next entry depends on.
A run is audited through its transitions: `Begins`, `Receives` and `Sends` say
when a process starts to wait, gets its `WAKEUP` and is sent one.
-/

namespace HandsOn.Mutex

open HandsOn.Semantics

variable {nprocs : ℕ} {homerank : Fin nprocs}

/-- At most one process is inside and at most one `WAKEUP` is in flight, never
both. -/
theorem mutual_exclusion {state : State nprocs}
    (reachable : (system homerank).Reachable state) :
    (∀ left right, state.pc left = .inside → state.pc right = .inside → left = right) ∧
      state.wakeups.length ≤ 1 ∧
      (state.wakeups ≠ [] → ∀ rank, state.pc rank ≠ .inside) := by
  obtain ⟨token, inv⟩ := TokenInv.of_reachable reachable
  have owned_of_inside : ∀ rank, state.pc rank = .inside → token = .owned rank := by
    intro rank here
    exact (inv.standing rank).owns.mp (by simp [here, Pc.Owns])
  refine ⟨fun left right leftInside rightInside => ?_, ?_, fun flying rank inside => ?_⟩
  · have place := owned_of_inside left leftInside
    rw [owned_of_inside right rightInside] at place
    exact (Token.owned.inj place).symm
  · rw [inv.wakeups]
    cases token <;> simp [Token.wakeups]
  · rw [inv.wakeups, owned_of_inside rank inside] at flying
    exact flying rfl

/-- How many processes and messages stand between a waiting process and its
`WAKEUP`: owners, processes with a `WAKEUP` to send, and messages in flight. -/
def State.holders (state : State nprocs) : ℕ :=
  Fintype.card {rank // (state.pc rank).Owns rank} +
    Fintype.card {rank // (state.pc rank).Signals rank} + state.wakeups.length

/-- Where the token is absent nobody holds it, else exactly one holder does. -/
theorem TokenInv.holders {state : State nprocs} {token : Token nprocs}
    (inv : TokenInv homerank state token) :
    state.holders = if token = .absent then 0 else 1 := by
  have owners : Fintype.card {rank // (state.pc rank).Owns rank} =
      Fintype.card {rank // token = .owned rank} :=
    Fintype.card_congr (Equiv.subtypeEquivRight fun rank => (inv.standing rank).owns)
  have signallers : Fintype.card {rank // (state.pc rank).Signals rank} =
      Fintype.card {rank // token = .signalling rank} :=
    Fintype.card_congr (Equiv.subtypeEquivRight fun rank => (inv.standing rank).signals)
  rw [State.holders, owners, signallers, inv.wakeups]
  cases token <;> simp [Token.wakeups]

/-- The holder of the token, or the process its message is for, can go on. -/
theorem TokenInv.progress {state : State nprocs} {token : Token nprocs}
    (inv : TokenInv homerank state token) (somewhere : token ≠ .absent) :
    ∃ action next, step homerank state action = some next := by
  have test : ∀ rank copy, (state.pc rank).copy? = some copy →
      ∃ i, firstWaiter nprocs copy = some i := fun rank copy here =>
    (firstWaiter_spec ((inv.standing rank).copy copy here)).imp fun _ found => found.1
  cases place : token with
  | absent => exact absurd place somewhere
  | owned rank =>
      have owns := (inv.standing rank).owns.mpr place
      cases here : state.pc rank with
      | lockTest copy =>
          obtain ⟨i, found⟩ := test rank copy (by simp [here, Pc.copy?])
          exact ⟨.lockTest rank, _, by simp [step, here, found]; rfl⟩
      | inside => exact ⟨.unlockEpoch rank, _, by simp [step, here]; rfl⟩
      | _ => simp [here, Pc.Owns] at owns
  | signalling rank =>
      have signals := (inv.standing rank).signals.mpr place
      cases here : state.pc rank with
      | unlockTest copy =>
          rw [here] at signals
          obtain ⟨other, different, nonzero⟩ := signals
          have length := (inv.standing rank).copy copy (by simp [here, Pc.copy?])
          obtain ⟨i, found⟩ := test rank copy (by simp [here, Pc.copy?])
          obtain ⟨next, chosen, _⟩ := nextrank_spec rank.isLt length
            ⟨other, other.isLt, fun same => different (Fin.ext same), nonzero⟩
          refine ⟨.unlockTest rank, if i < nprocs - 1 then state.setPc rank (.unlockSend next)
            else state.setPc rank .outside, ?_⟩
          by_cases waiting : i < nprocs - 1 <;> simp [step, here, found, chosen, waiting]
      | unlockSend next =>
          have valid := (inv.standing rank).next next here
          exact ⟨.unlockSend rank, _, by simp [step, here, valid]; rfl⟩
      | _ => simp [here, Pc.Signals] at signals
  | flying wakeup =>
      have flies : wakeup ∈ state.wakeups := by simp [inv.wakeups, place, Token.wakeups]
      have waits := inv.flying wakeup flies
      cases here : state.pc wakeup.dest with
      | lockTest copy =>
          obtain ⟨i, found⟩ := test wakeup.dest copy (by simp [here, Pc.copy?])
          exact ⟨.lockTest wakeup.dest, _, by simp [step, here, found]; rfl⟩
      | lockRecv =>
          exact ⟨.lockRecv wakeup.dest wakeup.source, _, by simp [step, here, flies]; rfl⟩
      | _ => simp [here, Pc.Waits] at waits

/-! ### Waits and wake-ups along a run -/

/-- The transition's epoch made `rank` wait. -/
def Begins (rank : Fin nprocs) (t : Transition (State nprocs) (Action nprocs)) : Bool :=
  decide (¬ (t.before.pc rank).Waits rank ∧ (t.after.pc rank).Waits rank)

/-- In the transition `rank` received a `WAKEUP`. -/
def Receives (rank : Fin nprocs) (t : Transition (State nprocs) (Action nprocs)) : Bool :=
  match t.action with
  | .lockRecv receiver _ => decide (receiver = rank)
  | _ => false

/-- In the transition a process sent a `WAKEUP` to `rank`. -/
def Sends (rank : Fin nprocs) (t : Transition (State nprocs) (Action nprocs)) : Bool :=
  match t.action with
  | .unlockSend sender => decide (t.before.pc sender = .unlockSend rank)
  | _ => false

/-- A process stops waiting by receiving its `WAKEUP`, and by nothing else. -/
theorem receives_iff {state next : State nprocs} {token : Token nprocs}
    {action : Action nprocs} (inv : TokenInv homerank state token)
    (taken : step homerank state action = some next) (rank : Fin nprocs) :
    Receives rank ⟨state, action, next⟩ = true ↔
      (state.pc rank).Waits rank ∧ ¬ (next.pc rank).Waits rank := by
  -- Only the acting process's own program counter changes.
  cases stepped_of_step taken with
  | @lockEpoch actor here =>
      obtain rfl | other := eq_or_ne rank actor
      · simp [Receives, here, Pc.Waits]
      · simp [Receives, setPc_pc_of_ne _ _ other]
  | @lockTest actor copy i here found =>
      obtain rfl | other := eq_or_ne rank actor
      · have length := (inv.standing rank).copy copy (by simp [here, Pc.copy?])
        have saw := TokenInv.test_iff_sawWaiter rank length found
        by_cases waiting : i < nprocs - 1 <;>
          simp [Receives, here, Pc.Waits, waiting, ← saw]
      · simp [Receives, setPc_pc_of_ne _ _ other]
  | @lockRecv actor source here flies =>
      obtain rfl | other := eq_or_ne rank actor
      · simp [Receives, here, Pc.Waits, State.setPc]
      · simp [Receives, other.symm, State.setPc, other]
  | @unlockEpoch actor here =>
      obtain rfl | other := eq_or_ne rank actor
      · simp [Receives, here, Pc.Waits]
      · simp [Receives, setPc_pc_of_ne _ _ other]
  | @unlockNone actor copy i here found none =>
      obtain rfl | other := eq_or_ne rank actor
      · simp [Receives, here, Pc.Waits]
      · simp [Receives, setPc_pc_of_ne _ _ other]
  | @unlockNext actor copy i next here found some chosen =>
      obtain rfl | other := eq_or_ne rank actor
      · simp [Receives, here, Pc.Waits]
      · simp [Receives, setPc_pc_of_ne _ _ other]
  | @unlockSend actor dest here =>
      obtain rfl | other := eq_or_ne rank actor
      · simp [Receives, here, Pc.Waits, State.setPc]
      · simp [Receives, State.setPc, other]

/-- Messages in flight to `rank`. -/
def State.inFlight (state : State nprocs) (rank : Fin nprocs) : ℕ :=
  state.wakeups.countP fun wakeup => wakeup.dest = rank

/-- A `WAKEUP` sent to a rank is in flight to it until the rank receives it. -/
theorem inFlight_ledger {state next : State nprocs} {action : Action nprocs}
    (taken : step homerank state action = some next) (rank : Fin nprocs) :
    (Sends rank ⟨state, action, next⟩).toNat + state.inFlight rank =
      (Receives rank ⟨state, action, next⟩).toNat + next.inFlight rank := by
  cases stepped_of_step taken with
  | @lockRecv actor source here flies =>
      by_cases same : actor = rank
      · have positive : 0 < state.wakeups.countP fun wakeup => wakeup.dest = rank :=
          List.countP_pos_iff.mpr ⟨_, flies, by simp [same]⟩
        rw [same] at flies
        simp only [Sends, Receives, State.inFlight, List.countP_erase, same, flies]
        simp
        omega
      · simp [Sends, Receives, State.inFlight, List.countP_erase, same]
  | @unlockSend actor dest here =>
      have sends : ((dest : ℕ) = rank) ↔ dest = rank := Fin.ext_iff.symm
      by_cases same : dest = rank <;>
        simp [Sends, Receives, State.inFlight, here, same, sends, Nat.add_comm]
  | _ => simp [Sends, Receives, State.inFlight]

/-- Along a run every wait begun has ended with one receive or is still on. -/
theorem waits_balance {state : State nprocs}
    {trace : List (Transition (State nprocs) (Action nprocs))}
    (steps : (system homerank).Steps (create homerank) trace state) (rank : Fin nprocs) :
    trace.countP (Begins rank) =
      trace.countP (Receives rank) + (if (state.pc rank).Waits rank then 1 else 0) := by
  refine steps.accumulates (P := fun trace state => trace.countP (Begins rank) =
    trace.countP (Receives rank) + (if (state.pc rank).Waits rank then 1 else 0))
    (by simp [create, Pc.Waits]) fun {trace state action next} prior balance taken => ?_
  obtain ⟨token, inv⟩ := TokenInv.of_reachable ⟨_, _, rfl, prior⟩
  have received := receives_iff inv taken rank
  by_cases before : (state.pc rank).Waits rank <;> by_cases after : (next.pc rank).Waits rank <;>
    simp_all [Begins, List.countP_append]

/-- Along a run every `WAKEUP` sent has been received or is in flight. -/
theorem wakeups_balance {state : State nprocs}
    {trace : List (Transition (State nprocs) (Action nprocs))}
    (steps : (system homerank).Steps (create homerank) trace state) (rank : Fin nprocs) :
    trace.countP (Sends rank) = trace.countP (Receives rank) + state.inFlight rank := by
  refine steps.accumulates (P := fun trace state =>
    trace.countP (Sends rank) = trace.countP (Receives rank) + state.inFlight rank)
    (by simp [create, State.inFlight]) fun {trace state action next} prior balance taken => ?_
  have ledger := inFlight_ledger taken rank
  cases sent : Sends rank ⟨state, action, next⟩ <;>
    cases received : Receives rank ⟨state, action, next⟩ <;>
    simp_all [List.countP_append] <;> omega

/-- While a process waits, exactly one process or message holds what it waits
for, and somebody can go on. Every `WAKEUP` is for a waiting process, none is in
flight over an all-zero waitlist, each wait that ended received exactly one, and
every one sent to a rank was received by it or is still in flight to it. -/
theorem wakeups_conserved {state : State nprocs}
    {trace : List (Transition (State nprocs) (Action nprocs))}
    (steps : (system homerank).Steps (create homerank) trace state) :
    ((∃ rank, (state.pc rank).Waits rank) → state.holders = 1 ∧
      ∃ action next, step homerank state action = some next) ∧
    (∀ wakeup ∈ state.wakeups, (state.pc wakeup.dest).Waits wakeup.dest) ∧
    ((∀ rank, state.byte homerank rank = 0) → state.wakeups = []) ∧
    (∀ rank, trace.countP (Begins rank) =
      trace.countP (Receives rank) + if (state.pc rank).Waits rank then 1 else 0) ∧
    (∀ rank, trace.countP (Sends rank) =
      trace.countP (Receives rank) + state.inFlight rank) := by
  obtain ⟨token, inv⟩ := TokenInv.of_reachable ⟨_, _, rfl, steps⟩
  refine ⟨?_, inv.flying, fun zero => ?_, waits_balance steps, wakeups_balance steps⟩
  · rintro ⟨rank, waits⟩
    have somewhere := (inv.standing rank).waits waits
    exact ⟨by rw [inv.holders, if_neg somewhere], inv.progress somewhere⟩
  · by_contra some
    obtain ⟨wakeup, flies⟩ := List.exists_mem_of_ne_nil _ some
    have wants := (inv.standing wakeup.dest).byte.mpr (.inl (inv.flying wakeup flies))
    exact wants (zero wakeup.dest)

/-! Rank 1 waits while rank 0 is inside, and rank 0 sends it the `WAKEUP`. -/

private def handoverActions : List (Action 2) :=
  [.lockEpoch 0, .lockTest 0, .lockEpoch 1, .lockTest 1, .unlockEpoch 0, .unlockTest 0,
    .unlockSend 0]

private def handover : List (Transition (State 2) (Action 2)) × State 2 :=
  (System.exec (step (0 : Fin 2)) (create 0) handoverActions).get (by decide)

private theorem handover_exec :
    System.exec (step (0 : Fin 2)) (create 0) handoverActions = some handover :=
  (Option.some_get _).symm

theorem mutual_exclusion_two :
    handover.2.wakeups = [⟨0, 1⟩] ∧
      (∀ left right, handover.2.pc left = .inside → handover.2.pc right = .inside →
        left = right) ∧
      handover.2.wakeups.length ≤ 1 ∧
      (handover.2.wakeups ≠ [] → ∀ rank, handover.2.pc rank ≠ .inside) :=
  ⟨by decide, mutual_exclusion (System.reachable_of_exec rfl handover_exec)⟩

theorem wakeups_conserved_two :
    (handover.2.pc 1).Waits (1 : Fin 2) ∧ handover.2.holders = 1 ∧
      ∀ wakeup ∈ handover.2.wakeups, (handover.2.pc wakeup.dest).Waits wakeup.dest := by
  obtain ⟨held, addressed, _⟩ := wakeups_conserved (System.exec_steps handover_exec)
  have waits : (handover.2.pc 1).Waits (1 : Fin 2) := by decide
  exact ⟨waits, (held ⟨1, waits⟩).1, addressed⟩

end HandsOn.Mutex
