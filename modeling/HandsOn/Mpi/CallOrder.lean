import HandsOn.Semantics.Progress
import Mathlib.Data.Finset.Max
import Mathlib.Logic.Function.Basic

/-!
# The order of collective calls

The calls that the processes of a job make in the same place belong together. A call returns
once the processes that it waits for have entered the call that belongs to it; it never does if
one of them makes another call in that place, or none. An implementation may let a call return
later than that, at the latest once all processes have entered it. A process that aborts ends
the whole job.
-/

namespace HandsOn.Mpi.CallOrder

open Semantics

universe u

/-- The processes of a job: what each calls, and whether it aborts the job after that.
`waits call p q` if `call` cannot return on `p` before `q` has entered it. -/
structure Job (Call : Type u) where
  size : ℕ
  waits : Call → ℕ → ℕ → Prop
  calls : ℕ → List Call
  aborts : ℕ → Bool

/-- From how many calls each process has returned, and which processes are inside the next. -/
structure State where
  returned : ℕ → ℕ
  inside : ℕ → Bool
  aborted : Bool

inductive Action where
  | enter (p : ℕ)
  | leave (p : ℕ)
  | abort (p : ℕ)

variable {Call : Type u}

namespace Job

variable (job : Job Call)

/-- No process has entered a call. -/
def initial : State := ⟨fun _ => 0, fun _ => false, false⟩

/-- A process has entered `call` in the `n`th place. -/
def Entered (state : State) (q n : ℕ) (call : Call) : Prop :=
  (job.calls q)[n]? = some call ∧ n < state.returned q + (state.inside q).toNat

/-- A step of one process. -/
inductive Step (state : State) : Action → State → Prop where
  | enter {p : ℕ} (running : state.aborted = false) (bounded : p < job.size)
      (outside : state.inside p = false) (more : state.returned p < (job.calls p).length) :
      Step state (.enter p) { state with inside := Function.update state.inside p true }
  | leave {p : ℕ} {call : Call} (running : state.aborted = false) (bounded : p < job.size)
      (inside : state.inside p = true) (current : (job.calls p)[state.returned p]? = some call)
      (entered : ∀ q < job.size, job.waits call p q →
        job.Entered state q (state.returned p) call) :
      Step state (.leave p) { state with
        returned := Function.update state.returned p (state.returned p + 1)
        inside := Function.update state.inside p false }
  | abort {p : ℕ} (running : state.aborted = false) (bounded : p < job.size)
      (outside : state.inside p = false) (last : state.returned p = (job.calls p).length)
      (aborts : job.aborts p = true) :
      Step state (.abort p) { state with aborted := true }

/-- The system of the processes. -/
def system : System State Action := ⟨(· = initial), job.Step⟩

/-- A step that no implementation may delay further. -/
def Due (state : State) : Action → Prop
  | .enter _ => True
  | .leave p => ∀ call, (job.calls p)[state.returned p]? = some call →
      ∀ q < job.size, job.Entered state q (state.returned p) call
  | .abort _ => True

/-- The job has neither been aborted nor come to the end of all its processes. -/
def Unfinished (state : State) : Prop :=
  state.aborted = false ∧ ∃ p < job.size,
    state.returned p < (job.calls p).length ∨ job.aborts p = true

/-- The processes make the same calls, or one of them aborts the job. -/
def Agrees : Prop :=
  (∃ p < job.size, job.aborts p = true) ∨
    ∀ p < job.size, ∀ q < job.size, job.calls p = job.calls q

/-- A process is inside a call that another one, which it waits for, does not make in that
place. -/
def WaitsInVain (state : State) (p : ℕ) : Prop :=
  state.inside p = true ∧ ∃ call, (job.calls p)[state.returned p]? = some call ∧
    ∃ q < job.size, job.waits call p q ∧ job.aborts q = false ∧
      (job.calls q)[state.returned p]? ≠ some call

/-- No process waits in vain. -/
def NoneInVain : Prop :=
  ∀ state, job.system.Reachable state → ∀ p < job.size, ¬ job.WaitsInVain state p

/-- However long the calls take to return, the job goes on until it has finished. -/
def NoHang : Prop :=
  ∀ state, job.system.Reachable state → job.Unfinished state →
    ∃ action next, job.Step state action next ∧ job.Due state action

/-- The processes stay together, or end together. -/
structure Together : Prop where
  agrees : job.Agrees
  noneInVain : job.NoneInVain
  noHang : job.NoHang

/-- The job can come to where no process can take a step, and one waits in vain. -/
def Hangs : Prop :=
  ∃ state, job.system.Reachable state ∧ job.Unfinished state ∧
    (∀ action next, ¬ job.Step state action next) ∧ ∃ p < job.size, job.WaitsInVain state p

/-! ### Invariants -/

/-- Every process is in one of its calls or between two of them, and all whom a call has waited
for have made it. -/
structure Valid (state : State) : Prop where
  within : ∀ p, state.returned p + (state.inside p).toNat ≤ (job.calls p).length
  met : ∀ p < job.size, ∀ n < state.returned p, ∀ call, (job.calls p)[n]? = some call →
    ∀ q < job.size, job.waits call p q → (job.calls q)[n]? = some call
  aborted : state.aborted = true → ∃ p < job.size, job.aborts p = true

variable {job} {state next : State}

theorem valid_initial : job.Valid initial :=
  ⟨fun _ => Nat.zero_le _, fun _ _ _ none => absurd none (Nat.not_lt_zero _), nofun⟩

theorem Valid.step (valid : job.Valid state) {action : Action}
    (taken : job.Step state action next) : job.Valid next := by
  cases taken with
  | @enter p running bounded outside more =>
      refine ⟨fun q => ?_, valid.met, valid.aborted⟩
      by_cases own : q = p
      · subst own
        simp only [Function.update_self, Bool.toNat_true]
        exact more
      · simp only [Function.update_of_ne own]
        exact valid.within q
  | @leave p call running bounded inside current entered =>
      refine ⟨fun q => ?_, fun q below n earlier => ?_, valid.aborted⟩
      · by_cases own : q = p
        · subst own
          have within := valid.within q
          rw [inside] at within
          simp only [Function.update_self, Bool.toNat_false]
          exact within
        · simp only [Function.update_of_ne own]
          exact valid.within q
      · by_cases own : q = p
        · subst own
          simp only [Function.update_self] at earlier
          rcases Nat.lt_succ_iff_lt_or_eq.mp earlier with before | rfl
          · exact valid.met q below n before
          · intro call' current' r inside' waits
            cases current.symm.trans current'
            exact (entered r inside' waits).1
        · simp only [Function.update_of_ne own] at earlier
          exact valid.met q below n earlier
  | @abort p running bounded outside last aborts =>
      exact ⟨valid.within, valid.met, fun _ => ⟨p, bounded, aborts⟩⟩

theorem valid_of_reachable (reachable : job.system.Reachable state) : job.Valid state :=
  reachable.invariant (fun initial => initial ▸ valid_initial)
    (fun valid taken => valid.step taken)

/-! ### Jobs that go on -/

/-- A process that is outside of its calls and not at the end of them can enter one. -/
theorem exists_enter (running : state.aborted = false) {p : ℕ} (bounded : p < job.size)
    (outside : state.inside p = false) (more : state.returned p < (job.calls p).length) :
    ∃ action next, job.Step state action next ∧ job.Due state action :=
  ⟨.enter p, _, .enter running bounded outside more, trivial⟩

/-- A process that is inside a call can leave it when all have entered it. -/
theorem exists_leave (running : state.aborted = false) {p : ℕ} (bounded : p < job.size)
    (inside : state.inside p = true) {call : Call}
    (current : (job.calls p)[state.returned p]? = some call)
    (entered : ∀ q < job.size, job.Entered state q (state.returned p) call) :
    ∃ action next, job.Step state action next ∧ job.Due state action := by
  refine ⟨.leave p, _, .leave running bounded inside current fun q below _ => entered q below, ?_⟩
  intro call' current'
  cases current.symm.trans current'
  exact entered

/-- A process that is outside of its calls can take a step, unless it has come to its end. -/
theorem Valid.exists_step (valid : job.Valid state) (running : state.aborted = false) {p : ℕ}
    (bounded : p < job.size) (outside : state.inside p = false)
    (busy : ¬ (state.returned p = (job.calls p).length ∧ job.aborts p = false)) :
    ∃ action next, job.Step state action next ∧ job.Due state action := by
  have within := valid.within p
  rw [outside] at within
  rcases Nat.lt_or_eq_of_le within with more | last
  · exact exists_enter running bounded outside more
  · have aborts : job.aborts p = true := by
      by_contra remains
      exact busy ⟨last, Bool.eq_false_iff.mpr remains⟩
    exact ⟨.abort p, _, .abort running bounded outside last aborts, trivial⟩

/-- Where no process can enter a call or abort, one is inside a call that nobody is behind. -/
theorem Unfinished.exists_first (unfinished : job.Unfinished state)
    (entered : ∀ p < job.size, state.inside p = false →
      state.returned p = (job.calls p).length ∧ job.aborts p = false) :
    ∃ p < job.size, state.inside p = true ∧ ∀ q < job.size, state.inside q = true →
      state.returned p ≤ state.returned q := by
  obtain ⟨_, p, bounded, busy⟩ := unfinished
  have inside : state.inside p = true := by
    by_contra outside
    obtain ⟨last, remains⟩ := entered p bounded (Bool.eq_false_iff.mpr outside)
    rw [last, remains] at busy
    rcases busy with less | aborts
    · exact absurd less (Nat.lt_irrefl _)
    · cases aborts
  obtain ⟨first, listed, fewest⟩ := Finset.exists_min_image
    ((Finset.range job.size).filter fun q => state.inside q = true) state.returned
    ⟨p, by simp [bounded, inside]⟩
  obtain ⟨range, inside'⟩ := Finset.mem_filter.mp listed
  exact ⟨first, Finset.mem_range.mp range, inside', fun q below within =>
    fewest q (Finset.mem_filter.mpr ⟨Finset.mem_range.mpr below, within⟩)⟩

/-- Two beginnings of the same calls agree in the places that both have. -/
theorem getElem?_of_prefix {first second common : List Call} (begins : first <+: common)
    (begins' : second <+: common) {n : ℕ} {call : Call} (current : first[n]? = some call)
    (long : n < second.length) : second[n]? = some call := by
  obtain ⟨within, rfl⟩ := List.getElem?_eq_some_iff.mp current
  have own := List.prefix_iff_getElem?.mp begins n within
  have other := List.prefix_iff_getElem?.mp begins' n long
  rw [List.getElem?_eq_getElem long, ← other, own]

/-- Processes that make the same calls, but for those that abort the job on the way, do not
hang. -/
theorem noHang_of_common (common : List Call) (begins : ∀ p < job.size, job.calls p <+: common)
    (ends : ∀ p < job.size, job.aborts p = false → job.calls p = common) : job.NoHang := by
  intro state reachable unfinished
  have valid := valid_of_reachable reachable
  have running := unfinished.1
  by_cases outside : ∃ p < job.size, state.inside p = false ∧
      ¬ (state.returned p = (job.calls p).length ∧ job.aborts p = false)
  · obtain ⟨p, bounded, outside, busy⟩ := outside
    exact valid.exists_step running bounded outside busy
  · have entered : ∀ p < job.size, state.inside p = false →
        state.returned p = (job.calls p).length ∧ job.aborts p = false := by
      intro p bounded waits
      by_contra busy
      exact outside ⟨p, bounded, waits, busy⟩
    obtain ⟨p, bounded, inside, fewest⟩ := unfinished.exists_first entered
    have within := valid.within p
    rw [inside, Bool.toNat_true] at within
    have current := List.getElem?_eq_getElem within
    have place : ∀ q < job.size, state.returned p < (job.calls q).length →
        (job.calls q)[state.returned p]? = some (job.calls p)[state.returned p] :=
      fun q below => getElem?_of_prefix (begins p bounded) (begins q below) current
    refine exists_leave running bounded inside current fun q below => ?_
    have own := valid.within q
    cases within' : state.inside q with
    | true =>
        have behind := fewest q below within'
        rw [within', Bool.toNat_true] at own
        refine ⟨place q below (by omega), ?_⟩
        rw [within', Bool.toNat_true]
        omega
    | false =>
        obtain ⟨last, remains⟩ := entered q below within'
        have long : (job.calls p).length ≤ (job.calls q).length := by
          rw [ends q below remains]
          exact (begins p bounded).length_le
        refine ⟨place q below (by omega), ?_⟩
        rw [within', Bool.toNat_false]
        omega

/-- Nobody waits in vain for a process that makes the same calls. -/
theorem noneInVain_of_common (common : List Call)
    (begins : ∀ p < job.size, job.calls p <+: common)
    (ends : ∀ p < job.size, job.aborts p = false → job.calls p = common) : job.NoneInVain := by
  rintro state _ p bounded ⟨_, call, current, q, below, _, remains, other⟩
  apply other
  refine getElem?_of_prefix (begins p bounded) (begins q below) current ?_
  rw [ends q below remains]
  exact (List.getElem?_eq_some_iff.mp current).1.trans_le (begins p bounded).length_le

/-! ### Jobs that come to the end -/

/-- How far a job has come. -/
def progressOf (job : Job Call) (state : State) : ℕ :=
  ∑ p ∈ Finset.range job.size, (2 * state.returned p + (state.inside p).toNat) +
    state.aborted.toNat

/-- Every step brings a job on. -/
theorem progressOf_step {action : Action} (taken : job.Step state action next) :
    job.progressOf next = job.progressOf state + 1 := by
  have moves : ∀ {p : ℕ}, p < job.size → next.aborted = state.aborted →
      2 * next.returned p + (next.inside p).toNat =
        2 * state.returned p + (state.inside p).toNat + 1 →
      (∀ q, q ≠ p → next.returned q = state.returned q ∧ next.inside q = state.inside q) →
      job.progressOf next = job.progressOf state + 1 := by
    intro p bounded same own others
    have total : ∑ q ∈ Finset.range job.size, (2 * next.returned q + (next.inside q).toNat) =
        ∑ q ∈ Finset.range job.size, (2 * state.returned q + (state.inside q).toNat) + 1 :=
      sum_succ (Finset.mem_range.mpr bounded) own fun q _ other => by
        simp only [(others q other).1, (others q other).2]
    rw [progressOf, progressOf, same, total, Nat.add_right_comm]
  cases taken with
  | @enter p running bounded outside more =>
      refine moves bounded rfl ?_ fun q other => ⟨rfl, Function.update_of_ne other _ _⟩
      simp only [Function.update_self, outside, Bool.toNat_true, Bool.toNat_false, Nat.add_zero]
  | @leave p call running bounded inside current entered =>
      refine moves bounded rfl ?_ fun q other =>
        ⟨Function.update_of_ne other _ _, Function.update_of_ne other _ _⟩
      simp only [Function.update_self, inside, Bool.toNat_true, Bool.toNat_false]
      omega
  | @abort p running bounded outside last aborts =>
      simp only [progressOf, running, Bool.toNat_true, Bool.toNat_false, Nat.add_zero]

/-- A job can only come so far. -/
theorem Valid.progressOf_le (valid : job.Valid state) :
    job.progressOf state ≤ ∑ p ∈ Finset.range job.size, 2 * (job.calls p).length + 1 := by
  refine Nat.add_le_add (Finset.sum_le_sum fun p _ => ?_) (Bool.toNat_le _)
  have within := valid.within p
  cases inside : state.inside p <;> rw [inside] at within <;>
    simp only [Bool.toNat_true, Bool.toNat_false] at within ⊢ <;> omega

/-- In a job that never gets stuck and that nobody aborts, the calls that wait for a process
are made by it. -/
theorem matched_of_neverStuck (never : job.system.NeverStuck job.Unfinished)
    (remains : ∀ p < job.size, job.aborts p = false) {p q n : ℕ} (bounded : p < job.size)
    (below : q < job.size) {call : Call} (current : (job.calls p)[n]? = some call)
    (waits : job.waits call p q) : (job.calls q)[n]? = some call := by
  obtain ⟨trace, finish, run, finished⟩ := never.finishes
    (fun _ taken => (progressOf_step taken).symm ▸ Nat.lt_succ_self _)
    (fun reachable => (valid_of_reachable reachable).progressOf_le) (.initial rfl)
  have valid := valid_of_reachable (System.Reachable.steps (.initial rfl) run)
  have running : finish.aborted = false := by
    by_contra aborted
    obtain ⟨r, inside, aborts⟩ := valid.aborted (Bool.eq_true_of_not_eq_false aborted)
    rw [remains r inside] at aborts
    cases aborts
  have last : (job.calls p).length ≤ finish.returned p := by
    by_contra more
    exact finished ⟨running, p, bounded, .inl (Nat.lt_of_not_le more)⟩
  have within := (List.getElem?_eq_some_iff.mp current).1
  exact valid.met p bounded n (by omega) call current q below waits

/-- A job that is stuck, and that nobody aborts, has a process that waits in vain. -/
theorem exists_waitsInVain (remains : ∀ p < job.size, job.aborts p = false)
    (reachable : job.system.Reachable state) (unfinished : job.Unfinished state)
    (stuck : ∀ action next, ¬ job.Step state action next) :
    ∃ p < job.size, job.WaitsInVain state p := by
  have valid := valid_of_reachable reachable
  have entered : ∀ p < job.size, state.inside p = false →
      state.returned p = (job.calls p).length ∧ job.aborts p = false := by
    intro p bounded outside
    by_contra busy
    obtain ⟨action, next, taken, _⟩ := valid.exists_step unfinished.1 bounded outside busy
    exact stuck action next taken
  obtain ⟨p, bounded, inside, fewest⟩ := unfinished.exists_first entered
  have within := valid.within p
  rw [inside] at within
  refine ⟨p, bounded, inside, _, List.getElem?_eq_getElem within, ?_⟩
  by_contra matched
  refine stuck (.leave p) _ (.leave unfinished.1 bounded inside
    (List.getElem?_eq_getElem within) fun q below waits => ?_)
  have same : (job.calls q)[state.returned p]? = some (job.calls p)[state.returned p] := by
    by_contra other
    exact matched ⟨q, below, waits, remains q below, other⟩
  refine ⟨same, ?_⟩
  have long := (List.getElem?_eq_some_iff.mp same).1
  cases within' : state.inside q with
  | true =>
      rw [Bool.toNat_true]
      exact Nat.lt_succ_of_le (fewest q below within')
  | false =>
      rw [(entered q below within').1]
      exact long

/-- Processes that make the same calls, but for those that abort the job on the way, stay
together. -/
theorem together_of_common (common : List Call) (begins : ∀ p < job.size, job.calls p <+: common)
    (ends : ∀ p < job.size, job.aborts p = false → job.calls p = common) : job.Together := by
  refine ⟨?_, noneInVain_of_common common begins ends, noHang_of_common common begins ends⟩
  by_cases aborts : ∃ p < job.size, job.aborts p = true
  · exact .inl aborts
  · have remains : ∀ p < job.size, job.calls p = common := fun p bounded =>
      ends p bounded (Bool.eq_false_iff.mpr fun aborted => aborts ⟨p, bounded, aborted⟩)
    exact .inr fun p bounded q below => (remains p bounded).trans (remains q below).symm

/-- A job hangs if a process makes a call that another one, which it waits for, does not. -/
theorem hangs_of_unmatched (remains : ∀ p < job.size, job.aborts p = false) {p q n : ℕ}
    (bounded : p < job.size) (below : q < job.size) {call : Call}
    (current : (job.calls p)[n]? = some call) (waits : job.waits call p q)
    (other : (job.calls q)[n]? ≠ some call) : job.Hangs := by
  have stuck : ¬ job.system.NeverStuck job.Unfinished := fun never =>
    other (matched_of_neverStuck never remains bounded below current waits)
  simp only [System.NeverStuck, not_forall] at stuck
  obtain ⟨state, reachable, unfinished, none⟩ := stuck
  have still : ∀ action next, ¬ job.Step state action next := fun action next taken =>
    none ⟨action, next, taken⟩
  exact ⟨state, reachable, unfinished, still,
    exists_waitsInVain remains reachable unfinished still⟩

/-- Processes that stay together do not hang. -/
theorem Together.not_hangs (together : job.Together) : ¬ job.Hangs := by
  rintro ⟨state, reachable, _, _, p, bounded, waits⟩
  exact together.noneInVain state reachable p bounded waits

end Job

end HandsOn.Mpi.CallOrder
