import Mathlib.Algebra.Order.BigOperators.Group.Finset
import HandsOn.Mutex.Handover

/-!
# Bounded bypass

The rank the token is heading for moves only when an owner executes its unlock
epoch, and then to the waiter nearest after the owner. While `patient` is on the
waitlist it is one of the candidates, so the cyclic distance from the heading to
`patient` decreases with every such epoch and a rank once passed is not headed
for again.
-/

namespace HandsOn.Mutex

open HandsOn.Semantics

variable {nprocs : ℕ} {homerank : Fin nprocs}

/-- The transition is the return of `MPIMUTEX_Lock` in `rank`. -/
def Enters (rank : Fin nprocs) (t : Transition (State nprocs) (Action nprocs)) : Bool :=
  decide (t.before.pc rank ≠ .inside ∧ t.after.pc rank = .inside)

/-- The rank that owns the mutex or is the next to own it. -/
def State.HeadsFor (state : State nprocs) (token : Token nprocs) (target : Fin nprocs) : Prop :=
  match token with
  | .absent => False
  | .owned rank => target = rank
  | .signalling rank =>
      state.pc rank = .unlockSend target ∨
        ∃ copy, state.pc rank = .unlockTest copy ∧ nextrank nprocs rank copy = some target.val
  | .flying wakeup => target = wakeup.dest

/-- In `MPIMUTEX_Lock` after its epoch. -/
def Pc.Pending : Pc → Prop
  | .lockTest _ | .lockRecv => True
  | _ => False

theorem Pc.waits_or_owns_of_pending (rank : Fin nprocs) {pc : Pc} (pending : pc.Pending) :
    pc.Waits rank ∨ pc.Owns rank := by
  cases pc with
  | lockTest copy => exact em (SawWaiter rank copy)
  | lockRecv => exact .inl trivial
  | _ => exact pending.elim

/-- Going to the nearest of the ranks after `origin` approaches each of them. -/
theorem cyclicDistance_lt {origin target patient : ℕ} (origin_lt : origin < nprocs)
    (target_lt : target < nprocs) (patient_lt : patient < nprocs) (moved : target ≠ origin)
    (apart : patient ≠ origin)
    (nearest : cyclicDistance nprocs origin target ≤ cyclicDistance nprocs origin patient) :
    cyclicDistance nprocs target patient < cyclicDistance nprocs origin patient := by
  simp only [cyclicDistance] at nearest ⊢
  split_ifs at nearest ⊢ <;> omega

/-- Somebody pending keeps the token from being absent. -/
theorem TokenInv.somewhere {state : State nprocs} {token : Token nprocs}
    (inv : TokenInv homerank state token) {patient : Fin nprocs}
    (pending : (state.pc patient).Pending) : token ≠ .absent := by
  rcases Pc.waits_or_owns_of_pending patient pending with waits | owns
  · exact (inv.standing patient).waits waits
  · rw [(inv.standing patient).owns.mp owns]
    simp

/-- The heading does not see a move of a process that has no `WAKEUP` to send. -/
theorem headsFor_of_move {state next : State nprocs} {token : Token nprocs}
    {actor target : Fin nprocs} (same : ∀ rank, rank ≠ actor → next.pc rank = state.pc rank)
    (silent : token ≠ .signalling actor) (heads : next.HeadsFor token target) :
    state.HeadsFor token target := by
  cases token with
  | signalling rank =>
      have apart : rank ≠ actor := by
        rintro rfl
        exact silent rfl
      simpa only [State.HeadsFor, same rank apart] using heads
  | _ => exact heads

/-- The owner's unlock epoch brings the heading nearer to every pending rank. -/
theorem headsFor_of_unlockEpoch {state : State nprocs} {token : Token nprocs}
    (inv : TokenInv homerank state token) {owner patient target : Fin nprocs}
    (here : state.pc owner = .inside) (pending : (state.pc patient).Pending)
    (chosen : nextrank nprocs owner (state.get homerank owner) = some target.val) :
    cyclicDistance nprocs target patient < cyclicDistance nprocs owner patient := by
  have apart : patient ≠ owner := by
    rintro rfl
    simp [here, Pc.Pending] at pending
  have listed : entry owner (state.get homerank owner) patient ≠ 0 :=
    (inv.entry_get apart).mpr (Pc.waits_or_owns_of_pending patient pending)
  have apart' : (patient : ℕ) ≠ owner := fun same => apart (Fin.ext same)
  obtain ⟨next, chosen', next_lt, moved, _, nearest⟩ := nextrank_spec owner.isLt
    (inv.length_get owner) ⟨patient, patient.isLt, apart', listed⟩
  obtain rfl : (target : ℕ) = next := Option.some.inj (chosen.symm.trans chosen')
  exact cyclicDistance_lt owner.isLt next_lt patient.isLt moved apart'
    (nearest patient patient.isLt apart' listed)

/-- What one step does to the heading: it stays, or the owner's unlock epoch
brings it nearer to every pending rank. -/
theorem headsFor_step {state next : State nprocs} {token token' : Token nprocs}
    {action : Action nprocs} (inv : TokenInv homerank state token)
    (inv' : TokenInv homerank next token')
    (taken : step homerank state action = some next) {patient target : Fin nprocs}
    (pending : (state.pc patient).Pending) (heads : next.HeadsFor token' target) :
    ((∀ owner, action ≠ .unlockEpoch owner) ∧ state.HeadsFor token target) ∨
      ∃ owner, action = .unlockEpoch owner ∧
        cyclicDistance nprocs target patient < cyclicDistance nprocs owner patient := by
  have silent_of : ∀ actor, ¬ (state.pc actor).Signals actor → token ≠ .signalling actor :=
    fun actor quiet place => quiet ((inv.standing actor).signals.mpr place)
  cases stepped_of_step taken with
  | @lockEpoch actor here =>
      rw [(inv.lockEpoch here).unique inv', if_neg (inv.somewhere pending)] at heads
      exact .inl ⟨by simp, headsFor_of_move (fun rank apart => setPc_pc_of_ne _ _ apart)
        (silent_of actor (by simp [here, Pc.Signals])) heads⟩
  | @lockTest actor copy i here found =>
      rw [(inv.lockTest here found).unique inv'] at heads
      exact .inl ⟨by simp, headsFor_of_move (fun rank apart => setPc_pc_of_ne _ _ apart)
        (silent_of actor (by simp [here, Pc.Signals])) heads⟩
  | @lockRecv actor source here flies =>
      rw [(inv.lockRecv here flies).unique inv'] at heads
      refine .inl ⟨by simp, ?_⟩
      rw [inv.wakeups] at flies
      cases token <;> simp_all [Token.wakeups, State.HeadsFor]
      exact congrArg Wakeup.dest flies
  | @unlockEpoch actor here =>
      refine .inr ⟨actor, rfl, ?_⟩
      rw [(inv.unlockEpoch here).unique inv'] at heads
      split at heads
      · simp only [State.HeadsFor, setPc_pc_self, reduceCtorEq, false_or] at heads
        obtain ⟨copy, fetched, chosen⟩ := heads
        rw [← Pc.unlockTest.inj fetched] at chosen
        exact headsFor_of_unlockEpoch inv here pending chosen
      · exact heads.elim
  | @unlockNone actor copy i here found none =>
      rw [(inv.unlockNone here found none).unique inv'] at heads
      have length := (inv.standing actor).copy copy (by simp [here, Pc.copy?])
      have empty := mt (TokenInv.test_iff_sawWaiter actor length found).mpr none
      exact .inl ⟨by simp, headsFor_of_move (fun rank apart => setPc_pc_of_ne _ _ apart)
        (silent_of actor (by simp [here, Pc.Signals, empty])) heads⟩
  | @unlockNext actor copy i chosen here found some search =>
      rw [(inv.unlockNext here found some search).unique inv'] at heads
      refine .inl ⟨by simp, ?_⟩
      by_cases signals : token = .signalling actor
      · subst signals
        simp only [State.HeadsFor, setPc_pc_self, Pc.unlockSend.injEq, reduceCtorEq,
          false_and, exists_false, or_false] at heads
        exact .inr ⟨copy, here, by rw [search, heads]⟩
      · exact headsFor_of_move (fun rank apart => setPc_pc_of_ne _ _ apart) signals heads
  | @unlockSend actor dest here =>
      have signals : token = .signalling actor :=
        (inv.standing actor).signals.mp (by simp [here, Pc.Signals])
      rw [(inv.unlockSend here).unique inv'] at heads
      refine .inl ⟨by simp, ?_⟩
      rw [signals]
      exact .inl (by rw [here, show target = dest from heads])

/-- Only its unlock epoch takes a process out of the critical section. -/
theorem inside_step {state next : State nprocs} {action : Action nprocs}
    (taken : step homerank state action = some next) {rank : Fin nprocs}
    (inside : state.pc rank = .inside) :
    next.pc rank = .inside ∨ action = .unlockEpoch rank := by
  cases stepped_of_step taken with
  | @unlockEpoch actor here =>
      obtain rfl | other := eq_or_ne rank actor
      · exact .inr rfl
      · exact .inl (by simp [setPc_pc_of_ne _ _ other, inside])
  | @lockEpoch actor here | @lockTest actor _ _ here _ | @lockRecv actor _ here _
  | @unlockNone actor _ _ here _ _ | @unlockNext actor _ _ _ here _ _ _
  | @unlockSend actor _ here =>
      have other : rank ≠ actor := by
        rintro rfl
        simp [inside] at here
      exact .inl (by simp [State.setPc, State.put, other, inside])

/-- A process that enters is the one the token was heading for. -/
theorem headsFor_of_enters {state next : State nprocs} {token : Token nprocs}
    {action : Action nprocs} (inv : TokenInv homerank state token)
    (taken : step homerank state action = some next) {rank : Fin nprocs}
    (enters : Enters rank ⟨state, action, next⟩ = true) : state.HeadsFor token rank := by
  obtain ⟨before, after⟩ := of_decide_eq_true enters
  have actor_of : ∀ actor, (∀ other, other ≠ actor → next.pc other = state.pc other) →
      rank = actor := by
    intro actor same
    by_contra other
    exact before ((same rank other).symm.trans after)
  cases stepped_of_step taken with
  | @lockTest actor copy i here found =>
      obtain rfl := actor_of actor fun other apart => setPc_pc_of_ne _ _ apart
      have inv' := inv.lockTest here found
      rw [(inv'.standing rank).owns.mp (by rw [after]; trivial)]
      exact rfl
  | @lockRecv actor source here flies =>
      obtain rfl := actor_of actor fun other apart => setPc_pc_of_ne _ _ apart
      rw [inv.wakeups] at flies
      cases token <;> simp_all [Token.wakeups, State.HeadsFor]
      exact congrArg Wakeup.dest flies
  | @lockEpoch actor here | @unlockEpoch actor here | @unlockNone actor _ _ here _ _
  | @unlockNext actor _ _ _ here _ _ _ | @unlockSend actor _ here =>
      obtain rfl := actor_of actor fun other apart => setPc_pc_of_ne _ _ apart
      simp [State.setPc] at after

/-- The token will not head for `rank` again before `patient` enters. -/
def State.Passed (state : State nprocs) (token : Token nprocs) (patient rank : Fin nprocs) :
    Prop :=
  state.pc rank = .inside ∨ ∀ target, state.HeadsFor token target →
    cyclicDistance nprocs target patient < cyclicDistance nprocs rank patient

/-- A rank once passed stays passed. -/
theorem passed_step {state next : State nprocs} {token token' : Token nprocs}
    {action : Action nprocs} (inv : TokenInv homerank state token)
    (inv' : TokenInv homerank next token')
    (taken : step homerank state action = some next) {patient rank : Fin nprocs}
    (pending : (state.pc patient).Pending) (passed : state.Passed token patient rank) :
    next.Passed token' patient rank := by
  have advance := fun {target} => @headsFor_step _ _ _ _ _ _ _ inv inv' taken patient target pending
  rcases passed with inside | behind
  · rcases inside_step taken inside with stays | rfl
    · exact .inl stays
    · refine .inr fun target heads => ?_
      rcases advance heads with ⟨other, _⟩ | ⟨owner, same, nearer⟩
      · exact absurd rfl (other rank)
      · obtain rfl := Action.unlockEpoch.inj same
        exact nearer
  · refine .inr fun target heads => ?_
    rcases advance heads with ⟨_, headed⟩ | ⟨owner, same, nearer⟩
    · exact behind target headed
    · subst same
      have owns : token = .owned owner := by
        cases stepped_of_step taken with
        | unlockEpoch here => exact (inv.standing owner).owns.mp (by rw [here]; trivial)
      have headed : state.HeadsFor token owner := by
        rw [owns]
        exact rfl
      exact nearer.trans (behind owner headed)

/-- A pending process stays pending until it enters. -/
theorem pending_step {state next : State nprocs} {action : Action nprocs}
    (taken : step homerank state action = some next) {patient : Fin nprocs}
    (pending : (state.pc patient).Pending)
    (notEntered : ¬ Enters patient ⟨state, action, next⟩ = true) :
    (next.pc patient).Pending := by
  have notInside : next.pc patient ≠ .inside := by
    intro after
    refine notEntered (decide_eq_true ⟨fun before => ?_, after⟩)
    change state.pc patient = .inside at before
    simp [before, Pc.Pending] at pending
  cases stepped_of_step taken with
  | @lockTest actor _ i here _ =>
      obtain rfl | other := eq_or_ne patient actor
      · by_cases waiting : i < nprocs - 1
        · simp [waiting, Pc.Pending]
        · simp [waiting] at notInside
      · rwa [setPc_pc_of_ne _ _ other]
  | @lockRecv actor _ here _ =>
      obtain rfl | other := eq_or_ne patient actor
      · simp [State.setPc] at notInside
      · simpa [State.setPc, other] using pending
  | @lockEpoch actor here | @unlockEpoch actor here | @unlockNone actor _ _ here _ _
  | @unlockNext actor _ _ _ here _ _ _ | @unlockSend actor _ here =>
      have other : patient ≠ actor := by
        rintro rfl
        simp [here, Pc.Pending] at pending
      simpa [State.setPc, State.put, other] using pending

/-- Until `patient` enters, every other rank enters at most once, and a rank
that entered is passed. -/
theorem entries_bounded {start state : State nprocs} {patient : Fin nprocs}
    {trace : List (Transition (State nprocs) (Action nprocs))}
    (reachable : (system homerank).Reachable start) (enqueued : (start.pc patient).Pending)
    (steps : (system homerank).Steps start trace state)
    (overtaken : ∀ t ∈ trace, ¬ Enters patient t = true) :
    (state.pc patient).Pending ∧ ∀ token, TokenInv homerank state token →
      ∀ rank, trace.countP (Enters rank) ≤ 1 ∧
        (0 < trace.countP (Enters rank) → state.Passed token patient rank) := by
  induction steps with
  | refl => exact ⟨enqueued, fun _ _ rank => by simp⟩
  | @step trace state action next prior taken ih =>
      obtain ⟨pending, bounded⟩ := ih fun t member =>
        overtaken t (List.mem_append_left _ member)
      have notEntered : ¬ Enters patient ⟨state, action, next⟩ = true :=
        overtaken _ (by simp)
      refine ⟨pending_step taken pending notEntered, fun token' inv' rank => ?_⟩
      obtain ⟨token, inv⟩ := TokenInv.of_reachable (reachable.steps prior)
      obtain ⟨once, passed⟩ := bounded token inv rank
      rw [List.countP_append, List.countP_singleton]
      by_cases enters : Enters rank ⟨state, action, next⟩ = true
      · -- The token heads for a rank that enters, so the rank was not passed before.
        have headed := headsFor_of_enters inv taken enters
        obtain ⟨before, after⟩ := of_decide_eq_true enters
        have fresh : trace.countP (Enters rank) = 0 := by
          by_contra entered
          rcases passed (Nat.pos_of_ne_zero entered) with inside | behind
          · exact before inside
          · exact Nat.lt_irrefl _ (behind rank headed)
        rw [fresh, if_pos enters]
        exact ⟨Nat.le_refl 1, fun _ => .inl after⟩
      · rw [if_neg enters]
        exact ⟨once, fun entered => passed_step inv inv' taken pending (passed entered)⟩

/-- From the step that sets its waitlist byte until it enters, a process is
overtaken at most once by each other process. -/
theorem bounded_bypass {before start state : State nprocs} {patient : Fin nprocs}
    {trace : List (Transition (State nprocs) (Action nprocs))}
    (reachable : (system homerank).Reachable before)
    (enqueue : step homerank before (.lockEpoch patient) = some start)
    (steps : (system homerank).Steps start trace state)
    (waiting : ∀ t ∈ trace, ¬ Enters patient t = true) :
    (∀ rank, rank ≠ patient → trace.countP (Enters rank) ≤ 1) ∧
      ∑ rank ∈ Finset.univ.erase patient, trace.countP (Enters rank) ≤ nprocs - 1 := by
  have taken : (system homerank).Step before (.lockEpoch patient) start := enqueue
  have reached : (system homerank).Reachable start := reachable.steps (.single taken)
  have enqueued : (start.pc patient).Pending := by
    cases stepped_of_step enqueue with
    | lockEpoch here => simp [Pc.Pending]
  obtain ⟨token, inv⟩ := TokenInv.of_reachable (reached.steps steps)
  have once : ∀ rank, trace.countP (Enters rank) ≤ 1 := fun rank =>
    ((entries_bounded reached enqueued steps waiting).2 token inv rank).1
  refine ⟨fun rank _ => once rank, ?_⟩
  calc ∑ rank ∈ Finset.univ.erase patient, trace.countP (Enters rank)
      ≤ ∑ _rank ∈ Finset.univ.erase patient, 1 := Finset.sum_le_sum fun rank _ => once rank
    _ = nprocs - 1 := by simp [Finset.card_erase_of_mem]

/-! Rank 2 waits for rank 0 and is overtaken by rank 1, which comes later. -/

private def overtakeStart : List (Transition (State 3) (Action 3)) × State 3 :=
  (System.exec (step (0 : Fin 3)) (create 0) [.lockEpoch 0, .lockTest 0]).get (by decide)

private theorem overtakeStart_exec :
    System.exec (step (0 : Fin 3)) (create 0) [.lockEpoch 0, .lockTest 0] = some overtakeStart :=
  (Option.some_get _).symm

private def overtakeEnqueued : State 3 :=
  (step (0 : Fin 3) overtakeStart.2 (.lockEpoch 2)).get (by decide)

private def overtakeActions : List (Action 3) :=
  [.lockEpoch 1, .unlockEpoch 0, .unlockTest 0, .unlockSend 0, .lockTest 1, .lockRecv 1 0]

private def overtake : List (Transition (State 3) (Action 3)) × State 3 :=
  (System.exec (step (0 : Fin 3)) overtakeEnqueued overtakeActions).get (by decide)

private theorem overtake_exec :
    System.exec (step (0 : Fin 3)) overtakeEnqueued overtakeActions = some overtake :=
  (Option.some_get _).symm

theorem bounded_bypass_three :
    overtake.1.countP (Enters 1) = 1 ∧
      (∀ rank : Fin 3, rank ≠ 2 → overtake.1.countP (Enters rank) ≤ 1) ∧
      ∑ rank ∈ Finset.univ.erase 2, overtake.1.countP (Enters rank) ≤ 3 - 1 :=
  ⟨by decide, bounded_bypass (System.reachable_of_exec rfl overtakeStart_exec)
    (Option.some_get _).symm (System.exec_steps overtake_exec) (by decide)⟩

end HandsOn.Mutex
