import HandsOn.Mpi.ActiveTarget

/-!
# Active target communication in synchronous steps

The run in which all processes take each step together, and what every other run has in
common with it: a process at the beginning of a step has the variables and the window that it
has there.
-/

namespace HandsOn.Mpi.ActiveTarget

open HandsOn.Semantics

universe u v w

/-- The variables and windows of all processes at the beginning of a step. -/
structure Snapshot (size : ℕ) (Private : Type u) (Slot : Type v) (Val : Type w) where
  priv : Fin size → Private
  window : Fin size → Slot → Val

variable {size : ℕ} {Private : Type u} {Slot : Type v} {Val : Type w}

namespace Program

variable (program : Program size Private Slot Val)

/-- What a process has after it has computed. -/
def computed (snapshot : Snapshot size Private Slot Val) (p : Fin size) :
    Private × (Slot → Val) :=
  program.compute p (snapshot.priv p) (snapshot.window p)

/-- The puts of a process. -/
def sends (snapshot : Snapshot size Private Slot Val) (p : Fin size) : List (Fin size × Slot) :=
  program.puts p (program.computed snapshot p).1

/-- The value that a process puts. -/
def value (snapshot : Snapshot size Private Slot Val) (p : Fin size) : Val :=
  program.origin (program.computed snapshot p).1

variable [DecidableEq Slot]

/-- The slot of a process after all puts. -/
def landed (snapshot : Snapshot size Private Slot Val) (p : Fin size) (slot : Slot) : Val :=
  match (List.finRange size).find? fun q => decide ((p, slot) ∈ program.sends snapshot q) with
  | some q => program.value snapshot q
  | none => (program.computed snapshot p).2 slot

/-- One step of all processes. -/
def after (snapshot : Snapshot size Private Slot Val) : Snapshot size Private Slot Val where
  priv p := program.settle p (program.computed snapshot p).1
  window := program.landed snapshot

/-- The synchronous run. -/
def sync : ℕ → Snapshot size Private Slot Val
  | 0 => ⟨program.start, program.window⟩
  | t + 1 => program.after (sync t)

/-- The groups match, no two puts of a step meet in one slot, and a process settles without
touching its origin buffer. -/
structure Matched : Prop where
  access : ∀ q priv d slot, (d, slot) ∈ program.puts q priv → d ∈ program.accessGroup q
  groups : ∀ q d, d ∈ program.accessGroup q ↔ q ∈ program.exposureGroup d
  origin : ∀ p priv, program.origin (program.settle p priv) = program.origin priv
  distinct : ∀ q q' priv priv' (i i' : ℕ) entry, (program.puts q priv)[i]? = some entry →
    (program.puts q' priv')[i']? = some entry → q = q' ∧ i = i'

variable {program} {snapshot : Snapshot size Private Slot Val}

theorem landed_of_sends (matched : program.Matched) {q p : Fin size} {slot : Slot}
    (listed : (p, slot) ∈ program.sends snapshot q) :
    program.landed snapshot p slot = program.value snapshot q := by
  have found : (List.finRange size).find?
      (fun q => decide ((p, slot) ∈ program.sends snapshot q)) = some q := by
    have some_found : ((List.finRange size).find?
        (fun q => decide ((p, slot) ∈ program.sends snapshot q))).isSome = true :=
      List.find?_isSome.mpr ⟨q, List.mem_finRange q, decide_eq_true listed⟩
    obtain ⟨q', here⟩ := Option.isSome_iff_exists.mp some_found
    have listed' : (p, slot) ∈ program.sends snapshot q' := by simpa using List.find?_some here
    obtain ⟨i, inside⟩ := List.mem_iff_getElem?.mp listed
    obtain ⟨i', inside'⟩ := List.mem_iff_getElem?.mp listed'
    rw [here, (matched.distinct _ _ _ _ _ _ _ inside inside').1]
  rw [landed, found]

theorem landed_of_not_sends {p : Fin size} {slot : Slot}
    (missing : ∀ q, (p, slot) ∉ program.sends snapshot q) :
    program.landed snapshot p slot = (program.computed snapshot p).2 slot := by
  have found : (List.finRange size).find?
      (fun q => decide ((p, slot) ∈ program.sends snapshot q)) = none :=
    List.find?_eq_none.mpr fun q _ sent => missing q (of_decide_eq_true sent)
  rw [landed, found]

/-! ### The puts -/

/-- The puts of a state, as far as they have come, are those of the synchronous run. -/
structure Logged (program : Program size Private Slot Val) (state : State size Private Slot Val) :
    Prop where
  sent : ∀ t q, 6 * t + 2 < state.clock q → state.sent t q = program.sends (program.sync t) q
  unsent : ∀ t q, state.clock q ≤ 6 * t + 2 → state.issued t q = 0
  issued_le : ∀ t q, state.issued t q ≤ (program.sends (program.sync t) q).length
  begun : ∀ t q index, state.status t q index ≠ .unread → index < state.issued t q
  settled : ∀ t q, 6 * t + 3 < state.clock q →
    state.issued t q = (program.sends (program.sync t) q).length
  read : ∀ t q, 6 * t + 4 < state.clock q →
    ∀ index < (program.sends (program.sync t) q).length, state.status t q index ≠ .unread
  flying : ∀ t q index value, state.status t q index = .flying value →
    value = program.value (program.sync t) q
  exposed : ∀ t q (index : ℕ) d slot, (program.sends (program.sync t) q)[index]? = some (d, slot) →
    state.status t q index = .stored → 6 * t + 1 < state.clock d
  completed : ∀ t d, 6 * t + 5 < state.clock d → ∀ q ∈ program.exposureGroup d,
    6 * t + 4 < state.clock q
  stored : ∀ t d, 6 * t + 5 < state.clock d → ∀ q (index : ℕ) slot,
    (program.sends (program.sync t) q)[index]? = some (d, slot) → state.status t q index = .stored

namespace Logged

variable {state : State size Private Slot Val}

/-- Only the puts matter. -/
theorem congr (logged : program.Logged state) {next : State size Private Slot Val}
    (clock : next.clock = state.clock) (sent : next.sent = state.sent)
    (issued : next.issued = state.issued) (status : next.status = state.status) :
    program.Logged next := by
  constructor <;> simp only [clock, sent, issued, status]
  · exact logged.sent
  · exact logged.unsent
  · exact logged.issued_le
  · exact logged.begun
  · exact logged.settled
  · exact logged.read
  · exact logged.flying
  · exact logged.exposed
  · exact logged.completed
  · exact logged.stored

/-- A process may return from a call once the call has done its part. -/
theorem move (logged : program.Logged state) {p : Fin size}
    (sent : ∀ t, state.clock p = 6 * t + 2 →
      state.sent t p = program.sends (program.sync t) p)
    (settled : ∀ t, state.clock p = 6 * t + 3 →
      state.issued t p = (program.sends (program.sync t) p).length)
    (read : ∀ t, state.clock p = 6 * t + 4 →
      ∀ index < (program.sends (program.sync t) p).length, state.status t p index ≠ .unread)
    (completed : ∀ t, state.clock p = 6 * t + 5 → ∀ q ∈ program.exposureGroup p,
      6 * t + 4 < state.clock q)
    (stored : ∀ t, state.clock p = 6 * t + 5 → ∀ q (index : ℕ) slot,
      (program.sends (program.sync t) q)[index]? = some (p, slot) →
        state.status t q index = .stored) :
    program.Logged (state.move p) := by
  have before : ∀ {q : Fin size} {bound : ℕ}, bound < (state.move p).clock q →
      bound < state.clock q ∨ (q = p ∧ state.clock p = bound) := by
    intro q bound later
    rw [State.clock_move] at later
    split at later
    · rename_i own
      subst own
      omega
    · exact .inl later
  have grows : ∀ q, state.clock q ≤ (state.move p).clock q := fun q => by
    rw [State.clock_move]
    exact Nat.le_add_right _ _
  refine ⟨?sent, ?unsent, logged.issued_le, logged.begun, ?settled, ?read, logged.flying, ?exposed,
    ?completed, ?stored⟩
  case sent =>
    intro t q later
    rcases before later with earlier | ⟨rfl, here⟩
    · exact logged.sent t q earlier
    · exact sent t here
  case unsent =>
    intro t q early
    exact logged.unsent t q ((grows q).trans early)
  case settled =>
    intro t q later
    rcases before later with earlier | ⟨rfl, here⟩
    · exact logged.settled t q earlier
    · exact settled t here
  case read =>
    intro t q later
    rcases before later with earlier | ⟨rfl, here⟩
    · exact logged.read t q earlier
    · exact read t here
  case exposed =>
    intro t q index d slot listed done
    exact (logged.exposed t q index d slot listed done).trans_le (grows d)
  case completed =>
    intro t d later q member
    refine Nat.lt_of_lt_of_le ?_ (grows q)
    rcases before later with earlier | ⟨rfl, here⟩
    · exact logged.completed t d earlier q member
    · exact completed t here q member
  case stored =>
    intro t d later
    rcases before later with earlier | ⟨rfl, here⟩
    · exact logged.stored t d earlier
    · exact stored t here

/-- A process writes down its puts before it issues any. -/
theorem setSent (logged : program.Logged state) {step : ℕ} {p : Fin size}
    (early : state.clock p ≤ 6 * step + 2) (puts : List (Fin size × Slot)) :
    program.Logged (state.setSent step p puts) := by
  refine ⟨fun t q later => ?_, logged.unsent, logged.issued_le, logged.begun, logged.settled,
    logged.read, logged.flying, logged.exposed, logged.completed, logged.stored⟩
  rw [State.clock_setSent] at later
  refine (if_neg ?_).trans (logged.sent t q later)
  rintro ⟨rfl, rfl⟩
  exact absurd later (Nat.not_lt.mpr early)

/-- A process issues its next put. -/
theorem issue (logged : program.Logged state) {step : ℕ} {p : Fin size}
    (here : state.clock p = 6 * step + 3)
    (more : state.issued step p < (program.sends (program.sync step) p).length) :
    program.Logged (state.issue step p) := by
  have grows : ∀ t q, state.issued t q ≤ (state.issue step p).issued t q := fun t q => by
    simp only [State.issue]
    split
    · exact Nat.le_succ _
    · exact Nat.le_refl _
  have other : ∀ t q, ¬ (t = step ∧ q = p) →
      (state.issue step p).issued t q = state.issued t q := fun t q apart => if_neg apart
  refine ⟨logged.sent, fun t q early => ?_, fun t q => ?_, fun t q index begun => ?_,
    fun t q later => ?_, logged.read, logged.flying, logged.exposed, logged.completed,
    logged.stored⟩
  · rw [State.clock_issue] at early
    rw [other t q (by rintro ⟨rfl, rfl⟩; omega)]
    exact logged.unsent t q early
  · by_cases own : t = step ∧ q = p
    · obtain ⟨rfl, rfl⟩ := own
      simp only [State.issue, and_self, if_true]
      exact more
    · rw [other t q own]
      exact logged.issued_le t q
  · exact (logged.begun t q index begun).trans_le (grows t q)
  · rw [State.clock_issue] at later
    rw [other t q (by rintro ⟨rfl, rfl⟩; omega)]
    exact logged.settled t q later

/-- The value of a put is read. -/
theorem setFlying (logged : program.Logged state) {step index : ℕ} {p : Fin size} {value : Val}
    (issued : index < state.issued step p) (unread : state.status step p index = .unread)
    (same : value = program.value (program.sync step) p) :
    program.Logged (state.setStatus step p index (.flying value)) := by
  have stored_iff : ∀ t q index', (state.setStatus step p index (.flying value)).status t q index' =
      .stored ↔ state.status t q index' = .stored := by
    intro t q index'
    rw [State.status_setStatus]
    split
    · rename_i own
      obtain ⟨rfl, rfl, rfl⟩ := own
      simp [unread]
    · exact Iff.rfl
  have begins : ∀ t q index', state.status t q index' ≠ .unread →
      (state.setStatus step p index (.flying value)).status t q index' ≠ .unread := by
    intro t q index' begun
    rw [State.status_setStatus]
    split
    · exact nofun
    · exact begun
  refine ⟨logged.sent, logged.unsent, logged.issued_le, fun t q index' begun => ?_, logged.settled,
    fun t q later index' inside => begins t q index' (logged.read t q later index' inside),
    fun t q index' value' flying => ?_,
    fun t q index' d slot listed done =>
      logged.exposed t q index' d slot listed ((stored_iff t q index').mp done),
    logged.completed,
    fun t d later q index' slot listed =>
      (stored_iff t q index').mpr (logged.stored t d later q index' slot listed)⟩
  · rw [State.status_setStatus] at begun
    split at begun
    · rename_i own
      obtain ⟨rfl, rfl, rfl⟩ := own
      exact issued
    · exact logged.begun t q index' begun
  · rw [State.status_setStatus] at flying
    split at flying
    · rename_i own
      obtain ⟨rfl, rfl, rfl⟩ := own
      cases flying
      exact same
    · exact logged.flying t q index' value' flying

/-- The value of a put is stored. -/
theorem setStored (logged : program.Logged state) {step index : ℕ} {p d : Fin size} {slot : Slot}
    {value : Val} (flying : state.status step p index = .flying value)
    (listed : (program.sends (program.sync step) p)[index]? = some (d, slot))
    (posted : 6 * step + 1 < state.clock d) :
    program.Logged (state.setStatus step p index .stored) := by
  have begun_iff : ∀ t q index', (state.setStatus step p index .stored).status t q index' ≠
      .unread ↔ state.status t q index' ≠ .unread := by
    intro t q index'
    rw [State.status_setStatus]
    split
    · rename_i own
      obtain ⟨rfl, rfl, rfl⟩ := own
      simp [flying]
    · exact Iff.rfl
  refine ⟨logged.sent, logged.unsent, logged.issued_le,
    fun t q index' begun => logged.begun t q index' ((begun_iff t q index').mp begun),
    logged.settled,
    fun t q later index' inside =>
      (begun_iff t q index').mpr (logged.read t q later index' inside),
    fun t q index' value' flying' => ?_, fun t q index' d' slot' listed' done => ?_,
    logged.completed, fun t d later q index' slot listed => ?_⟩
  · rw [State.status_setStatus] at flying'
    split at flying'
    · cases flying'
    · exact logged.flying t q index' value' flying'
  · rw [State.status_setStatus] at done
    split at done
    · rename_i own
      obtain ⟨rfl, rfl, rfl⟩ := own
      rw [listed] at listed'
      cases listed'
      exact posted
    · exact logged.exposed t q index' d' slot' listed' done
  · rw [State.status_setStatus]
    split
    · rfl
    · exact logged.stored t d later q index' slot listed

end Logged

/-! ### The variables and the windows -/

variable (program) in
/-- The variables of a process in a step. -/
def privAt (t : ℕ) (p : Fin size) : Stage → Private
  | .compute => (program.sync t).priv p
  | .post => (program.computed (program.sync t) p).1
  | .start => (program.computed (program.sync t) p).1
  | .put => (program.computed (program.sync t) p).1
  | .complete => (program.sync (t + 1)).priv p
  | .wait => (program.sync (t + 1)).priv p

/-- A slot of a process that has computed: a put has been stored in it, or none has. -/
def SlotAt (program : Program size Private Slot Val) (state : State size Private Slot Val) (t : ℕ)
    (p : Fin size) (slot : Slot) : Prop :=
  (∃ q index, (program.sends (program.sync t) q)[index]? = some (p, slot) ∧
      state.status t q index = .stored ∧
      state.window p slot = program.value (program.sync t) q) ∨
    ((∀ q (index : ℕ), (program.sends (program.sync t) q)[index]? = some (p, slot) →
      state.status t q index ≠ .stored) ∧
      state.window p slot = (program.computed (program.sync t) p).2 slot)

/-- A process agrees with the synchronous run. -/
structure AgreesAt (program : Program size Private Slot Val) (state : State size Private Slot Val)
    (p : Fin size) : Prop where
  priv : state.priv p = program.privAt (state.step p) p (state.stage p)
  window : state.stage p = .compute → state.window p = (program.sync (state.step p)).window p
  slot : state.stage p ≠ .compute → ∀ slot, program.SlotAt state (state.step p) p slot

/-- A state agrees with the synchronous run. -/
structure Agrees (program : Program size Private Slot Val) (state : State size Private Slot Val) :
    Prop where
  logged : program.Logged state
  process : ∀ p, program.AgreesAt state p

variable {state next : State size Private Slot Val}

/-- A slot is about the window of its process and the puts to it. -/
theorem SlotAt.congr {t : ℕ} {p : Fin size} {slot : Slot} (holds : program.SlotAt state t p slot)
    (window : next.window p slot = state.window p slot)
    (status : ∀ q (index : ℕ), (program.sends (program.sync t) q)[index]? = some (p, slot) →
      (next.status t q index = .stored ↔ state.status t q index = .stored)) :
    program.SlotAt next t p slot := by
  rcases holds with ⟨q, index, listed, stored, value⟩ | ⟨pending, value⟩
  · exact .inl ⟨q, index, listed, (status q index listed).mpr stored, window.trans value⟩
  · exact .inr ⟨fun q index listed stored => pending q index listed
      ((status q index listed).mp stored), window.trans value⟩

/-- A process is not affected by what others do elsewhere. -/
theorem AgreesAt.congr {p : Fin size} (agrees : program.AgreesAt state p)
    (step : next.step p = state.step p) (stage : next.stage p = state.stage p)
    (priv : next.priv p = state.priv p) (window : next.window p = state.window p)
    (status : ∀ slot q (index : ℕ),
      (program.sends (program.sync (state.step p)) q)[index]? = some (p, slot) →
        (next.status (state.step p) q index = .stored ↔
          state.status (state.step p) q index = .stored)) :
    program.AgreesAt next p where
  priv := by
    rw [priv, step, stage]
    exact agrees.priv
  window here := by
    rw [stage] at here
    rw [window, step]
    exact agrees.window here
  slot away slot := by
    rw [stage] at away
    rw [step]
    exact (agrees.slot away slot).congr (congrFun window slot) (status slot)

/-- A process that returns from a call in the middle of a step keeps its window. -/
theorem AgreesAt.move {p : Fin size} (agrees : program.AgreesAt state p)
    (started : state.stage p ≠ .compute) (more : state.stage p ≠ .wait)
    (step : next.step p = (state.move p).step p) (stage : next.stage p = (state.move p).stage p)
    (priv : next.priv p = program.privAt (state.step p) p (state.stage p).next)
    (window : next.window p = state.window p) (status : next.status = state.status) :
    program.AgreesAt next p := by
  rw [State.step_move more] at step
  rw [State.stage_move] at stage
  refine ⟨?_, fun here => ?_, fun _ slot => ?_⟩
  · rw [priv, step, stage]
  · rw [stage] at here
    cases same : state.stage p <;> rw [same] at here more
    all_goals first | exact absurd rfl more | cases here
  · rw [step]
    refine (agrees.slot started slot).congr (congrFun window slot) fun q index _ => ?_
    rw [status]

namespace Agrees

theorem initial : program.Agrees program.initial where
  logged :=
    { sent := fun _ _ later => absurd later (Nat.not_lt_zero _)
      unsent := fun _ _ _ => rfl
      issued_le := fun _ _ => Nat.zero_le _
      begun := fun _ _ _ begun => absurd rfl begun
      settled := fun _ _ later => absurd later (Nat.not_lt_zero _)
      read := fun _ _ later => absurd later (Nat.not_lt_zero _)
      flying := fun _ _ _ _ flying => by cases flying
      exposed := fun _ _ _ _ _ _ done => by cases done
      completed := fun _ _ later => absurd later (Nat.not_lt_zero _)
      stored := fun _ _ later => absurd later (Nat.not_lt_zero _) }
  process _ := ⟨rfl, fun _ => rfl, fun away => absurd rfl away⟩

variable {p : Fin size}

/-- The other processes stay where they are when one returns from a call. -/
theorem others (agrees : program.Agrees state) (step : ∀ q, q ≠ p → next.step q = state.step q)
    (stage : ∀ q, q ≠ p → next.stage q = state.stage q)
    (priv : ∀ q, q ≠ p → next.priv q = state.priv q)
    (window : ∀ q, q ≠ p → next.window q = state.window q) (status : next.status = state.status)
    (own : program.AgreesAt next p) : ∀ q, program.AgreesAt next q := by
  intro q
  by_cases same : q = p
  · rw [same]
    exact own
  · refine (agrees.process q).congr (step q same) (stage q same) (priv q same) (window q same) ?_
    intro slot q' index _
    rw [status]

theorem compute (agrees : program.Agrees state) (here : state.stage p = .compute) :
    program.Agrees (((state.move p).setPriv p
      (program.compute p (state.priv p) (state.window p)).1).setWindow p
        (program.compute p (state.priv p) (state.window p)).2) := by
  have clock := State.clock_of_stage here
  have moved : program.Logged (state.move p) := by
    apply agrees.logged.move <;> intro t same <;> rw [clock] at same <;>
      simp only [Stage.index] at same <;> omega
  have step : (state.move p).step p = state.step p := State.step_move (by simp [here])
  have result : program.compute p (state.priv p) (state.window p) =
      program.computed (program.sync (state.step p)) p := by
    rw [(agrees.process p).priv, (agrees.process p).window here, here]
    rfl
  refine ⟨moved.congr rfl rfl rfl rfl, agrees.others
    (fun q other => Function.update_of_ne other _ _)
    (fun q other => Function.update_of_ne other _ _)
    (fun q other => Function.update_of_ne other _ _)
    (fun q other => Function.update_of_ne other _ _) rfl ?_⟩
  refine ⟨?_, fun there => ?_, fun _ slot => .inr ⟨fun q index listed stored => ?_, ?_⟩⟩
  · refine (Function.update_self _ _ _).trans ?_
    rw [result]
    show _ = program.privAt ((state.move p).step p) p ((state.move p).stage p)
    rw [step, State.stage_move, here]
    rfl
  · have stage := @State.stage_move _ _ _ _ state p
    rw [here] at stage
    cases stage.symm.trans there
  · change (program.sends (program.sync ((state.move p).step p)) q)[index]? = _ at listed
    change state.status ((state.move p).step p) q index = _ at stored
    rw [step] at listed stored
    have early := agrees.logged.exposed _ _ _ _ _ listed stored
    rw [clock] at early
    simp only [Stage.index] at early
    omega
  · show Function.update state.window p _ p slot =
      (program.computed (program.sync ((state.move p).step p)) p).2 slot
    rw [Function.update_self, result, step]

/-- A process that returns from a call in the middle of a step. -/
theorem move (agrees : program.Agrees state) (started : state.stage p ≠ .compute)
    (more : state.stage p ≠ .wait) (moved : program.Logged (state.move p))
    (priv : state.priv p = program.privAt (state.step p) p (state.stage p).next) :
    program.Agrees (state.move p) :=
  ⟨moved, agrees.others (fun _ other => Function.update_of_ne other _ _)
    (fun _ other => Function.update_of_ne other _ _) (fun _ _ => rfl) (fun _ _ => rfl) rfl
    ((agrees.process p).move started more rfl rfl priv rfl rfl)⟩

theorem post (agrees : program.Agrees state) (here : state.stage p = .post) :
    program.Agrees (state.move p) := by
  have clock := State.clock_of_stage here
  refine agrees.move (by simp [here]) (by simp [here]) ?_ ?_
  · apply agrees.logged.move <;> intro t same <;> rw [clock] at same <;>
      simp only [Stage.index] at same <;> omega
  · have priv := (agrees.process p).priv
    rw [here] at priv ⊢
    exact priv

/-- The puts of a process that has computed. -/
theorem puts_eq (agrees : program.Agrees state) (here : state.stage p = .start) :
    program.puts p (state.priv p) = program.sends (program.sync (state.step p)) p := by
  rw [(agrees.process p).priv, here]
  rfl

theorem start (agrees : program.Agrees state) (here : state.stage p = .start) :
    program.Agrees
      ((state.move p).setSent (state.step p) p (program.puts p (state.priv p))) := by
  have clock := State.clock_of_stage here
  have written : program.Agrees (state.setSent (state.step p) p (program.puts p (state.priv p))) :=
    ⟨agrees.logged.setSent (by rw [clock]; exact Nat.le_refl _) _, fun q =>
      (agrees.process q).congr rfl rfl rfl rfl fun _ _ _ _ => Iff.rfl⟩
  have there : (state.setSent (state.step p) p (program.puts p (state.priv p))).stage p = .start :=
    here
  refine written.move (by simp [there]) (by simp [there]) ?_ ?_
  · apply written.logged.move <;> intro t same <;> rw [State.clock_setSent, clock] at same <;>
      simp only [Stage.index] at same
    · have step : t = state.step p := by omega
      rw [step, ← agrees.puts_eq here]
      exact if_pos ⟨rfl, rfl⟩
    all_goals omega
  · have priv := (agrees.process p).priv
    rw [here] at priv
    show state.priv p = program.privAt (state.step p) p (state.stage p).next
    rw [here]
    exact priv

/-- The puts that a process has begun to issue. -/
theorem sent_eq (agrees : program.Agrees state) (here : state.stage p = .put) :
    state.sent (state.step p) p = program.sends (program.sync (state.step p)) p := by
  apply agrees.logged.sent
  rw [State.clock_of_stage here]
  simp only [Stage.index]
  omega

theorem put (agrees : program.Agrees state) {entry : Fin size × Slot}
    (here : state.stage p = .put)
    (listed : (state.sent (state.step p) p)[state.issued (state.step p) p]? = some entry) :
    program.Agrees (state.issue (state.step p) p) := by
  refine ⟨agrees.logged.issue (State.clock_of_stage here) ?_, fun q =>
    (agrees.process q).congr rfl rfl rfl rfl fun _ _ _ _ => Iff.rfl⟩
  rw [agrees.sent_eq here] at listed
  exact (List.getElem?_eq_some_iff.mp listed).1

theorem settle (agrees : program.Agrees state) (here : state.stage p = .put)
    (all : state.issued (state.step p) p = (state.sent (state.step p) p).length) :
    program.Agrees ((state.move p).setPriv p (program.settle p (state.priv p))) := by
  have clock := State.clock_of_stage here
  have moved : program.Logged (state.move p) := by
    apply agrees.logged.move <;> intro t same <;> rw [clock] at same <;>
      simp only [Stage.index] at same
    · omega
    · have step : t = state.step p := by omega
      rw [step, all, agrees.sent_eq here]
    all_goals omega
  refine ⟨moved.congr rfl rfl rfl rfl, agrees.others
    (fun q other => Function.update_of_ne other _ _)
    (fun q other => Function.update_of_ne other _ _)
    (fun q other => Function.update_of_ne other _ _) (fun _ _ => rfl) rfl ?_⟩
  refine (agrees.process p).move (by simp [here]) (by simp [here]) rfl rfl ?_
    rfl rfl
  refine (Function.update_self _ _ _).trans ?_
  rw [(agrees.process p).priv, here]
  rfl

/-- A process that has issued a put and not completed has the value in its buffer. -/
theorem origin_eq (agrees : program.Agrees state) (matched : program.Matched) {index : ℕ}
    (issued : index < state.issued (state.step p) p)
    (unread : state.status (state.step p) p index = .unread) :
    program.origin (state.priv p) = program.value (program.sync (state.step p)) p := by
  have inside := issued.trans_le (agrees.logged.issued_le _ p)
  have early : ¬ 6 * state.step p + 4 < state.clock p := fun later =>
    agrees.logged.read _ p later index inside unread
  have late : ¬ state.clock p ≤ 6 * state.step p + 2 := fun before => by
    rw [agrees.logged.unsent _ p before] at issued
    exact absurd issued (Nat.not_lt_zero _)
  rw [(agrees.process p).priv]
  cases here : state.stage p with
  | put => rfl
  | complete => exact matched.origin p _
  | _ => exact absurd (State.clock_of_stage here) (by simp only [Stage.index]; omega)

theorem read (agrees : program.Agrees state) (matched : program.Matched) {index : ℕ}
    (issued : index < state.issued (state.step p) p)
    (unread : state.status (state.step p) p index = .unread) :
    program.Agrees
      (state.setStatus (state.step p) p index (.flying (program.origin (state.priv p)))) := by
  refine ⟨agrees.logged.setFlying issued unread (agrees.origin_eq matched issued unread), fun q =>
    (agrees.process q).congr rfl rfl rfl rfl fun _ q' index' _ => ?_⟩
  rw [State.status_setStatus]
  split
  · rename_i own
    obtain ⟨step, rfl, rfl⟩ := own
    rw [step, unread]
    simp
  · exact Iff.rfl

theorem store (agrees : program.Agrees state) {q : Fin size} {index : ℕ}
    {put : Fin size × Slot} {value : Val}
    (listed : (state.sent (state.step put.1) q)[index]? = some put)
    (flying : state.status (state.step put.1) q index = .flying value)
    (posted : state.Passed put.1 (state.step put.1) .post) :
    program.Agrees ((state.setWindow put.1
      (Function.update (state.window put.1) put.2 value)).setStatus (state.step put.1) q index
        .stored) := by
  obtain ⟨d, slot⟩ := put
  have issued := agrees.logged.begun (state.step d) q index (by simp [flying])
  have sent : state.sent (state.step d) q = program.sends (program.sync (state.step d)) q := by
    refine agrees.logged.sent _ _ (Nat.lt_of_not_le fun early => ?_)
    rw [agrees.logged.unsent _ q early] at issued
    exact absurd issued (Nat.not_lt_zero _)
  rw [sent] at listed
  have same := agrees.logged.flying _ _ _ _ flying
  have stored := agrees.logged.setStored flying listed posted
  refine ⟨stored.congr rfl rfl rfl rfl, fun p => ?_⟩
  by_cases own : p = d
  · subst own
    have started : state.stage p ≠ .compute := fun here => by
      have clock := State.clock_of_stage here
      simp only [State.Passed, Stage.index] at posted clock
      omega
    refine ⟨(agrees.process p).priv, fun here => absurd here started, fun _ slot' => ?_⟩
    by_cases meets : slot' = slot
    · subst meets
      refine .inl ⟨q, index, listed, ?_, ?_⟩
      · rw [State.status_setStatus]
        exact if_pos ⟨rfl, rfl, rfl⟩
      · refine Eq.trans ?_ same
        show Function.update state.window p _ p slot' = value
        rw [Function.update_self, Function.update_self]
    · refine ((agrees.process p).slot started slot').congr ?_ fun q' index' listed' => ?_
      · show Function.update state.window p _ p slot' = _
        rw [Function.update_self, Function.update_of_ne meets]
      · rw [State.status_setStatus, if_neg]
        · exact Iff.rfl
        · rintro ⟨_, rfl, rfl⟩
          rw [listed] at listed'
          cases listed'
          exact meets rfl
  · refine (agrees.process p).congr rfl rfl rfl (Function.update_of_ne own _ _)
      fun slot' q' index' listed' => ?_
    rw [State.status_setStatus, if_neg]
    · exact Iff.rfl
    · rintro ⟨step, rfl, rfl⟩
      rw [step, listed] at listed'
      cases listed'
      exact own rfl

theorem complete (agrees : program.Agrees state) (here : state.stage p = .complete)
    (read : state.Read p) : program.Agrees (state.move p) := by
  have clock := State.clock_of_stage here
  refine agrees.move (by simp [here]) (by simp [here]) ?_ ?_
  · apply agrees.logged.move <;> intro t same <;> rw [clock] at same <;>
      simp only [Stage.index] at same
    · omega
    · omega
    · have step : t = state.step p := by omega
      intro index inside
      rw [step] at inside ⊢
      have sent := agrees.logged.sent (state.step p) p
        (by rw [clock]; simp only [Stage.index]; omega)
      exact Status.isUnread_eq_false.mp (read index (by rw [sent]; exact inside))
    all_goals omega
  · have priv := (agrees.process p).priv
    rw [here] at priv ⊢
    exact priv

/-- What a process waits for. -/
theorem stored_of_wait (agrees : program.Agrees state) (matched : program.Matched)
    (completed : ∀ q ∈ program.exposureGroup p, p ∈ program.accessGroup q ∧
      state.Passed q (state.step p) .complete ∧ state.Stored p q) {q : Fin size} {index : ℕ}
    {slot : Slot}
    (listed : (program.sends (program.sync (state.step p)) q)[index]? = some (p, slot)) :
    state.status (state.step p) q index = .stored := by
  have member := (matched.groups q p).mp (matched.access q _ p slot (List.mem_of_getElem? listed))
  obtain ⟨_, passed, stored⟩ := completed q member
  have sent := agrees.logged.sent (state.step p) q (by
    simp only [State.Passed, Stage.index] at passed
    omega)
  rw [← sent] at listed
  refine Status.isStored_eq_true.mp (stored index (List.getElem?_eq_some_iff.mp listed).1 ?_)
  rw [listed]
  rfl

theorem wait (agrees : program.Agrees state) (matched : program.Matched)
    (here : state.stage p = .wait)
    (completed : ∀ q ∈ program.exposureGroup p, p ∈ program.accessGroup q ∧
      state.Passed q (state.step p) .complete ∧ state.Stored p q) :
    program.Agrees (state.move p) := by
  have clock := State.clock_of_stage here
  have moved : program.Logged (state.move p) := by
    apply agrees.logged.move <;> intro t same <;> rw [clock] at same <;>
      simp only [Stage.index] at same
    · omega
    · omega
    · omega
    · have step : t = state.step p := by omega
      intro q member
      rw [step]
      exact (completed q member).2.1
    · have step : t = state.step p := by omega
      intro q index slot listed
      rw [step] at listed ⊢
      exact agrees.stored_of_wait matched completed listed
  have step := State.step_move_wait here
  have stage := @State.stage_move _ _ _ _ state p
  rw [here] at stage
  refine ⟨moved, agrees.others (fun q other => Function.update_of_ne other _ _)
    (fun q other => Function.update_of_ne other _ _) (fun _ _ => rfl) (fun _ _ => rfl) rfl ?_⟩
  refine ⟨?_, fun _ => ?_, fun away => absurd stage away⟩
  · rw [step, stage]
    have priv := (agrees.process p).priv
    rw [here] at priv
    exact priv
  · rw [step]
    ext1 slot
    show state.window p slot = program.landed (program.sync (state.step p)) p slot
    rcases (agrees.process p).slot (by simp [here]) slot with
      ⟨q, index, listed, _, value⟩ | ⟨pending, value⟩
    · rw [value, landed_of_sends matched (List.mem_of_getElem? listed)]
    · rw [value, landed_of_not_sends fun q sent => ?_]
      obtain ⟨index, listed⟩ := List.mem_iff_getElem?.mp sent
      exact pending q index listed (agrees.stored_of_wait matched completed listed)

/-- Every step keeps the agreement. -/
theorem step (agrees : program.Agrees state) (matched : program.Matched) {action : Action size}
    (taken : program.step state action = some next) : program.Agrees next := by
  cases stepped_iff.mp taken with
  | compute here more => exact agrees.compute here
  | post here => exact agrees.post here
  | start here => exact agrees.start here
  | put here listed opened => exact agrees.put here listed
  | settle here all => exact agrees.settle here all
  | read issued unread => exact agrees.read matched issued unread
  | store listed flying posted => exact agrees.store listed flying posted
  | complete here read => exact agrees.complete here read
  | wait here completed => exact agrees.wait matched here completed

end Agrees

/-- Every reachable state agrees with the synchronous run. -/
theorem agrees_of_reachable (matched : program.Matched)
    (reachable : program.system.Reachable state) : program.Agrees state :=
  reachable.invariant (fun initial => initial ▸ Agrees.initial)
    (fun agrees taken => agrees.step matched taken)

end Program

end HandsOn.Mpi.ActiveTarget
