import Mathlib.Data.Fintype.EquivFin
import Mathlib.Data.Fintype.Lattice
import HandsOn.Mpi.ActiveTargetSync
import HandsOn.Semantics.Progress

/-!
# Progress of active target communication

The process that has returned from the fewest calls is never held back: its next call can
return, or a put that the call waits for can be read or stored. Each step returns from a
call, issues a put, or brings a put on, so that every run ends, and ends with all processes
after their last step.
-/

namespace HandsOn.Mpi.ActiveTarget

open HandsOn.Semantics

universe u v w

variable {size : ℕ} {Private : Type u} {Slot : Type v} {Val : Type w}

namespace Program

variable (program : Program size Private Slot Val)

/-- The call would return even if it waited as long as it may: `MPI_Win_start` until the
processes of its group have posted, `MPI_Win_complete` until all puts have been stored. -/
def Due (state : State size Private Slot Val) : Action size → Prop
  | .start p => ∀ q ∈ program.accessGroup p, state.Passed q (state.step p) .post
  | .complete p => ∀ index < (state.sent (state.step p) p).length,
      state.status (state.step p) p index = .stored
  | _ => True

/-- Some process has a step before it. -/
def Unfinished (state : State size Private Slot Val) : Prop :=
  ∃ p, state.step p < program.steps

variable [DecidableEq Slot] {program} {state next : State size Private Slot Val}

namespace Agrees

/-- A put that has been read and not stored can be stored, once its target has posted. -/
theorem stores (agrees : program.Agrees state) {t index : ℕ} {q d : Fin size} {slot : Slot}
    {value : Val} (listed : (program.sends (program.sync t) q)[index]? = some (d, slot))
    (flying : state.status t q index = .flying value) (posted : 6 * t + 1 < state.clock d) :
    ∃ next, program.step state (.store t q index) = some next := by
  have issued := agrees.logged.begun t q index (by simp [flying])
  have sent : state.sent t q = program.sends (program.sync t) q := by
    refine agrees.logged.sent _ _ (Nat.lt_of_not_le fun early => ?_)
    rw [agrees.logged.unsent _ q early] at issued
    exact absurd issued (Nat.not_lt_zero _)
  have early : ¬ 6 * t + 5 < state.clock d := fun later => by
    rw [agrees.logged.stored t d later q index slot listed] at flying
    cases flying
  have step : state.step d = t := by
    have within := State.index_lt (state.stage d)
    simp only [State.clock] at posted early
    omega
  subst step
  rw [← sent] at listed
  exact ⟨_, stepped_iff.mpr (@Stepped.store _ _ _ _ _ program state q index (d, slot) value listed
    flying posted)⟩

/-- A process that has issued its puts and not completed can read one of them or store it, or
all have been stored. -/
theorem completes (agrees : program.Agrees state) {p : Fin size}
    (first : ∀ q, state.clock p ≤ state.clock q) (here : state.stage p = .complete) :
    ∃ action next, program.Due state action ∧ program.step state action = some next := by
  have clock := State.clock_of_stage here
  simp only [Stage.index] at clock
  have sent := agrees.logged.sent (state.step p) p (by omega)
  have settled := agrees.logged.settled (state.step p) p (by omega)
  by_cases all : ∀ index < (state.sent (state.step p) p).length,
      state.status (state.step p) p index = .stored
  · refine ⟨.complete p, _, all, stepped_iff.mpr (.complete here fun index inside => ?_)⟩
    rw [all index inside]
    rfl
  · push Not at all
    obtain ⟨index, inside, pending⟩ := all
    rw [sent] at inside
    cases status : state.status (state.step p) p index with
    | unread =>
        exact ⟨.read p index, _, trivial, stepped_iff.mpr (.read (settled ▸ inside) status)⟩
    | flying value =>
        obtain ⟨⟨d, slot⟩, listed⟩ :
            ∃ entry, (program.sends (program.sync (state.step p)) p)[index]? = some entry :=
          ⟨_, List.getElem?_eq_getElem inside⟩
        have behind := first d
        obtain ⟨next, taken⟩ := agrees.stores listed status (by omega)
        exact ⟨.store (state.step p) p index, next, trivial, taken⟩
    | stored => exact absurd status pending

/-- A process that waits can return, or a put to it can be stored. -/
theorem waits (agrees : program.Agrees state) (matched : program.Matched) {p : Fin size}
    (first : ∀ q, state.clock p ≤ state.clock q) (here : state.stage p = .wait) :
    ∃ action next, program.Due state action ∧ program.step state action = some next := by
  have clock := State.clock_of_stage here
  simp only [Stage.index] at clock
  have passed : ∀ q, 6 * state.step p + 4 < state.clock q := fun q => by
    have := first q
    omega
  by_cases all : ∀ q ∈ program.exposureGroup p, state.Stored p q
  · exact ⟨.wait p, _, trivial, stepped_iff.mpr (.wait here fun q member =>
      ⟨(matched.groups q p).mpr member, passed q, all q member⟩)⟩
  · push Not at all
    obtain ⟨q, _, missing⟩ := all
    simp only [State.Stored] at missing
    push Not at missing
    obtain ⟨index, inside, target, pending⟩ := missing
    have later := passed q
    rw [agrees.logged.sent _ q (by omega)] at inside target
    obtain ⟨⟨d, slot⟩, listed, same⟩ := Option.map_eq_some_iff.mp target
    obtain rfl : d = p := same
    cases status : state.status (state.step d) q index with
    | unread => exact absurd status (agrees.logged.read _ q (passed q) index inside)
    | flying value =>
        obtain ⟨next, taken⟩ := agrees.stores listed status (by omega)
        exact ⟨.store (state.step d) q index, next, trivial, taken⟩
    | stored => exact absurd (Status.isStored_eq_true.mpr status) pending

/-- While a process has a step before it, some call returns however long calls may wait, or a
put gets on. -/
theorem progress (agrees : program.Agrees state) (matched : program.Matched)
    (unfinished : program.Unfinished state) :
    ∃ action next, program.Due state action ∧ program.step state action = some next := by
  obtain ⟨p', more'⟩ := unfinished
  have : Nonempty (Fin size) := ⟨p'⟩
  obtain ⟨p, first⟩ := Finite.exists_min state.clock
  cases here : state.stage p with
  | compute =>
      have clock := State.clock_of_stage here
      have before := first p'
      have within := State.index_lt (state.stage p')
      simp only [Stage.index] at clock
      rw [clock, State.clock] at before
      exact ⟨.compute p, _, trivial, stepped_iff.mpr (.compute here (by omega))⟩
  | post => exact ⟨.post p, _, trivial, stepped_iff.mpr (.post here)⟩
  | start =>
      refine ⟨.start p, _, fun q _ => ?_, stepped_iff.mpr (.start here)⟩
      have clock := State.clock_of_stage here
      have before := first q
      simp only [Stage.index] at clock
      simp only [State.Passed, Stage.index]
      omega
  | put =>
      cases listed : (state.sent (state.step p) p)[state.issued (state.step p) p]? with
      | some put =>
          have member := List.mem_of_getElem? listed
          rw [agrees.sent_eq here] at member
          exact ⟨.put p, _, trivial,
            stepped_iff.mpr (.put here listed (matched.access p _ put.1 put.2 member))⟩
      | none =>
          have issued := agrees.logged.issued_le (state.step p) p
          rw [← agrees.sent_eq here] at issued
          exact ⟨.settle p, _, trivial, stepped_iff.mpr (.settle here
            (Nat.le_antisymm issued (List.getElem?_eq_none_iff.mp listed)))⟩
  | complete => exact agrees.completes first here
  | wait => exact agrees.waits matched first here

end Agrees

/-- No process waits for ever, even if calls return as late as they may. -/
theorem due_of_unfinished (matched : program.Matched) (reachable : program.system.Reachable state)
    (unfinished : program.Unfinished state) :
    ∃ action next, program.Due state action ∧ program.step state action = some next :=
  (agrees_of_reachable matched reachable).progress matched unfinished

theorem neverStuck (matched : program.Matched) : program.system.NeverStuck program.Unfinished := by
  intro state reachable unfinished
  obtain ⟨action, next, _, taken⟩ := due_of_unfinished matched reachable unfinished
  exact ⟨action, next, taken⟩

/-! ### Runs end -/

/-- A return from a call, after which one clock has moved. -/
theorem clock_step {action : Action size} (taken : program.step state action = some next) :
    next.clock = state.clock ∨ ∃ p, next.clock = (state.move p).clock := by
  cases stepped_iff.mp taken with
  | @compute p here more => exact .inr ⟨p, rfl⟩
  | @post p here => exact .inr ⟨p, rfl⟩
  | @start p here => exact .inr ⟨p, rfl⟩
  | put here listed opened => exact .inl rfl
  | @settle p here all => exact .inr ⟨p, rfl⟩
  | read issued unread => exact .inl rfl
  | store listed flying posted => exact .inl rfl
  | @complete p here read => exact .inr ⟨p, rfl⟩
  | @wait p here completed => exact .inr ⟨p, rfl⟩

/-- A process takes one step after another. -/
theorem clock_step_le {action : Action size} (taken : program.step state action = some next)
    (p : Fin size) : next.clock p ≤ state.clock p + 1 := by
  rcases clock_step taken with same | ⟨q, moved⟩
  · rw [same]
    exact Nat.le_succ _
  · rw [moved, State.clock_move]
    split <;> omega

/-- A process in its last step returns from all its calls, and then from no other. -/
theorem clock_le_of_reachable (reachable : program.system.Reachable state) (p : Fin size) :
    state.clock p ≤ 6 * program.steps := by
  refine reachable.invariant (P := fun state => ∀ p, state.clock p ≤ 6 * program.steps)
    (fun initial p => initial ▸ Nat.zero_le _) (fun {state action next} within taken q => ?_) p
  have moves : ∀ {p : Fin size}, state.clock p < 6 * program.steps →
      (state.move p).clock q ≤ 6 * program.steps := by
    intro p before
    rw [State.clock_move]
    split
    · rename_i own
      subst own
      exact before
    · exact within q
  have inside : ∀ {p : Fin size}, state.stage p ≠ .compute →
      state.clock p < 6 * program.steps := by
    intro p started
    have before := within p
    rw [State.clock] at before ⊢
    cases here : state.stage p <;> rw [here] at before started <;> simp only [Stage.index] at * <;>
      first | exact absurd rfl started | omega
  cases stepped_iff.mp taken with
  | compute here more =>
      refine moves ?_
      rw [State.clock_of_stage here]
      simp only [Stage.index]
      omega
  | post here => exact moves (inside (by simp [here]))
  | start here => exact moves (inside (by simp [here]))
  | put here listed opened => exact within q
  | settle here all => exact moves (inside (by simp [here]))
  | read issued unread => exact within q
  | store listed flying posted => exact within q
  | complete here read => exact moves (inside (by simp [here]))
  | wait here completed => exact moves (inside (by simp [here]))

/-- How far a put has come. -/
def progressOf : Status Val → ℕ
  | .unread => 0
  | .flying _ => 1
  | .stored => 2

variable (program) in
/-- How far the puts of a process have come in a step. -/
def putsDone (state : State size Private Slot Val) (t : ℕ) (q : Fin size) : ℕ :=
  state.issued t q + ∑ index ∈ Finset.range (program.sends (program.sync t) q).length,
    progressOf (state.status t q index)

variable (program) in
/-- How far a state has come. -/
def weight (state : State size Private Slot Val) : ℕ :=
  ∑ p, state.clock p +
    ∑ t ∈ Finset.range program.steps, ∑ q, program.putsDone state t q

variable (program) in
/-- How far the states can come. -/
def bound : ℕ :=
  ∑ _p : Fin size, 6 * program.steps + ∑ t ∈ Finset.range program.steps,
    ∑ q, 3 * (program.sends (program.sync t) q).length

/-- A return from a call is one step on. -/
theorem weight_move {p : Fin size} (clock : next.clock = (state.move p).clock)
    (issued : next.issued = state.issued) (status : next.status = state.status) :
    program.weight next = program.weight state + 1 := by
  have calls : ∑ q, next.clock q = ∑ q, state.clock q + 1 :=
    sum_succ (Finset.mem_univ p) (by rw [clock, State.clock_move, if_pos rfl])
      fun q _ other => by rw [clock, State.clock_move, if_neg other, Nat.add_zero]
  have puts : program.putsDone next = program.putsDone state := by
    funext t q
    simp only [putsDone, issued, status]
  rw [weight, weight, calls, puts]
  exact Nat.add_right_comm _ _ _

/-- A put that comes one step on brings the state one step on. -/
theorem weight_put {t : ℕ} {p : Fin size} (clock : next.clock = state.clock)
    (inside : t < program.steps)
    (own : program.putsDone next t p = program.putsDone state t p + 1)
    (others : ∀ t' q, ¬ (t' = t ∧ q = p) →
      program.putsDone next t' q = program.putsDone state t' q) :
    program.weight next = program.weight state + 1 := by
  have puts : ∑ t ∈ Finset.range program.steps, ∑ q, program.putsDone next t q =
      ∑ t ∈ Finset.range program.steps, ∑ q, program.putsDone state t q + 1 := by
    refine sum_succ (Finset.mem_range.mpr inside) ?_ fun t' _ other =>
      Finset.sum_congr rfl fun q _ => others t' q fun both => other both.1
    exact sum_succ (Finset.mem_univ p) own fun q _ other => others t q fun both => other both.2
  rw [weight, weight, clock, puts]
  rfl

/-- A put whose status comes one step on. -/
theorem weight_status {t index : ℕ} {p : Fin size} {status : Status Val}
    (clock : next.clock = state.clock) (issued : next.issued = state.issued)
    (changed : next.status = (state.setStatus t p index status).status)
    (inside : t < program.steps) (listed : index < (program.sends (program.sync t) p).length)
    (on : progressOf status = progressOf (state.status t p index) + 1) :
    program.weight next = program.weight state + 1 := by
  refine weight_put clock inside (p := p) ?_ fun t' q other => ?_
  · rw [putsDone, putsDone, issued, Nat.add_assoc]
    refine congrArg (state.issued t p + ·) (sum_succ (Finset.mem_range.mpr listed) ?_ ?_)
    · rw [changed, State.status_setStatus, if_pos ⟨rfl, rfl, rfl⟩, on]
    · intro index' _ apart
      rw [changed, State.status_setStatus, if_neg fun all => apart all.2.2]
  · rw [putsDone, putsDone, issued]
    refine congrArg (state.issued t' q + ·) (Finset.sum_congr rfl fun index' _ => ?_)
    rw [changed, State.status_setStatus, if_neg fun all => other ⟨all.1, all.2.1⟩]

/-- Every step brings the state one step on. -/
theorem weight_step (matched : program.Matched) (reachable : program.system.Reachable state)
    {action : Action size} (taken : program.step state action = some next) :
    program.weight next = program.weight state + 1 := by
  have agrees := agrees_of_reachable matched reachable
  have within : ∀ {t : ℕ} {p : Fin size}, state.issued t p ≠ 0 → t < program.steps := by
    intro t p issued
    have clock := clock_le_of_reachable reachable p
    have late : ¬ state.clock p ≤ 6 * t + 2 := fun early =>
      issued (agrees.logged.unsent t p early)
    omega
  cases stepped_iff.mp taken with
  | compute here more => exact weight_move rfl rfl rfl
  | post here => exact weight_move rfl rfl rfl
  | start here => exact weight_move rfl rfl rfl
  | @put p put here listed opened =>
      have clock := clock_le_of_reachable reachable p
      rw [State.clock_of_stage here] at clock
      simp only [Stage.index] at clock
      refine weight_put rfl (t := state.step p) (p := p) (by omega) ?_ fun t q other => ?_
      · simp only [putsDone, State.issue, and_self, if_true]
        exact Nat.add_right_comm _ _ _
      · simp only [putsDone, State.issue, if_neg other]
  | settle here all => exact weight_move rfl rfl rfl
  | @read p index issued unread =>
      refine weight_status rfl rfl rfl (within (Nat.ne_zero_of_lt issued))
        (issued.trans_le (agrees.logged.issued_le _ p)) ?_
      rw [unread]
      rfl
  | @store q index put value listed flying posted =>
      have issued := agrees.logged.begun (state.step put.1) q index (by simp [flying])
      refine weight_status rfl rfl rfl (within (Nat.ne_zero_of_lt issued))
        (issued.trans_le (agrees.logged.issued_le _ q)) ?_
      rw [flying]
      rfl
  | complete here read => exact weight_move rfl rfl rfl
  | wait here completed => exact weight_move rfl rfl rfl

theorem weight_le (matched : program.Matched) (reachable : program.system.Reachable state) :
    program.weight state ≤ program.bound := by
  have agrees := agrees_of_reachable matched reachable
  refine Nat.add_le_add (Finset.sum_le_sum fun p _ => clock_le_of_reachable reachable p)
    (Finset.sum_le_sum fun t _ => Finset.sum_le_sum fun q _ => ?_)
  have issued := agrees.logged.issued_le t q
  have stored : ∑ index ∈ Finset.range (program.sends (program.sync t) q).length,
      progressOf (state.status t q index) ≤ (program.sends (program.sync t) q).length * 2 := by
    refine (Finset.sum_le_card_nsmul _ _ 2 fun index _ => ?_).trans_eq ?_
    · cases state.status t q index <;> simp [progressOf]
    · rw [Finset.card_range]
      rfl
  rw [putsDone]
  omega

/-- Every run can be taken on until all processes are after their last step. -/
theorem finishes (matched : program.Matched) (reachable : program.system.Reachable state) :
    ∃ trace finish, program.system.Steps state trace finish ∧
      ∀ p, finish.clock p = 6 * program.steps := by
  obtain ⟨trace, finish, run, done⟩ := (neverStuck matched).finishes
    (fun reachable taken => (weight_step matched reachable taken).symm ▸ Nat.lt_succ_self _)
    (fun reachable => weight_le matched reachable) reachable
  refine ⟨trace, finish, run, fun p => ?_⟩
  have clock := clock_le_of_reachable (reachable.steps run) p
  have last : ¬ finish.step p < program.steps := fun more => done ⟨p, more⟩
  rw [State.clock] at clock ⊢
  omega

/-- A run in which a process has returned from some calls passes through every number of them. -/
theorem exists_clock (reachable : program.system.Reachable state) {p : Fin size} {clock : ℕ}
    (below : clock ≤ state.clock p) :
    ∃ earlier, program.system.Reachable earlier ∧ earlier.clock p = clock := by
  obtain ⟨start, trace, rfl, run⟩ := reachable
  induction run with
  | refl => exact ⟨_, .initial rfl, Nat.le_antisymm (Nat.zero_le _) below⟩
  | @step trace current action next prior taken before =>
      rcases Nat.lt_or_ge (current.clock p) clock with later | earlier
      · refine ⟨next, ⟨_, _, rfl, prior.step taken⟩, ?_⟩
        have := clock_step_le taken p
        omega
      · exact before earlier

/-- Every process gets to every call of every step. -/
theorem Matched.exists_stage (matched : program.Matched) {t : ℕ} (p : Fin size) (stage : Stage)
    (within : 6 * t + stage.index ≤ 6 * program.steps) :
    ∃ state, program.system.Reachable state ∧ state.step p = t ∧ state.stage p = stage := by
  obtain ⟨trace, finish, run, done⟩ := finishes matched (.initial rfl)
  obtain ⟨state, reachable, clock⟩ :=
    exists_clock (⟨_, _, rfl, run⟩ : program.system.Reachable finish)
      (within.trans_eq (done p).symm)
  exact ⟨state, reachable, State.stage_of_clock clock⟩

end Program

end HandsOn.Mpi.ActiveTarget
