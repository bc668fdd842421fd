import HandsOn.Semantics.Progress
import Mathlib.Data.Finset.Max
import Mathlib.Logic.Function.Basic

/-!
# Collective calls

Processes enter collective calls in their own order, and the calls that they enter in the
same place belong together. A call returns as soon as what it returns is known: a broadcast
once the root has entered it, a reduction once all processes have. An implementation may
let calls return later than that, at the latest once all processes have entered.

`Lockstep` runs all processes one call at a time. Where it succeeds, every interleaving
follows it.
-/

namespace HandsOn.Mpi.Collective

open Semantics

universe u v

/-- The datatypes of elements. -/
inductive Element where
  | char
  | byte
  | int
deriving DecidableEq

/-- The operations of a reduction. -/
inductive Op where
  | min
deriving DecidableEq

/-- A collective call, by the arguments that must agree on all processes. -/
inductive Call (Comm : Type u) where
  | bcast (comm : Comm) (root count : ℕ) (element : Element)
  | allreduce (comm : Comm) (op : Op) (count : ℕ) (element : Element)
  | free (comm : Comm)
  | finalize
deriving DecidableEq

/-- The contents of a buffer. -/
inductive Payload where
  | bytes (values : List UInt8)
  | ints (values : List Int32)
deriving DecidableEq

def Payload.getBytes : Payload → List UInt8
  | bytes values => values
  | ints _ => []

def Payload.getInts : Payload → List Int32
  | bytes _ => []
  | ints values => values

/-- A buffer of `count` elements of a datatype. -/
def Payload.Holds (count : ℕ) (element : Element) : Payload → Prop
  | bytes values => element ≠ .int ∧ values.length = count
  | ints values => element = .int ∧ values.length = count

def Op.apply : Op → Int32 → Int32 → Int32
  | min => fun left right => if left ≤ right then left else right

/-- The elementwise reduction of the buffers of all processes. -/
def Op.reduce (op : Op) : List Payload → Payload
  | [] => .ints []
  | first :: rest =>
      .ints (rest.foldl (fun total next => total.zipWith op.apply next.getInts) first.getInts)

namespace Call

variable {Comm : Type u}

/-- The root is one of the processes. -/
def Rooted (size : ℕ) : Call Comm → Prop
  | bcast _ root _ _ => root < size
  | _ => True

/-- The buffer that a process hands over has the elements that it announces. -/
def Sends (p : ℕ) (payload : Payload) : Call Comm → Prop
  | bcast _ root count element => p = root → payload.Holds count element
  | allreduce _ _ count element => payload.Holds count element
  | _ => True

/-- What a call returns, from the buffers of the processes that have entered it. -/
def result (size : ℕ) (sent : ℕ → Option Payload) : Call Comm → Option Payload
  | bcast _ root _ _ => sent root
  | allreduce _ op _ _ =>
      if ∀ p ∈ List.range size, (sent p).isSome then
        some (op.reduce ((List.range size).filterMap sent))
      else
        none
  | free _ => some (.bytes [])
  | finalize => some (.bytes [])

end Call

/-- What a process does next. -/
inductive Act (Comm : Type u) (Local : Type v) where
  | finished
  | call (call : Call Comm) (sent : Payload) (resume : Payload → Local)

/-- The programs of `size` processes. -/
structure Program (Comm : Type u) (Local : Type v) where
  size : ℕ
  act : ℕ → Local → Act Comm Local
  start : ℕ → Local

/-- The processes between their calls, the calls that each has entered, and which of them have
not returned from the last one. -/
structure State (Comm : Type u) (Local : Type v) where
  locals : ℕ → Local
  history : ℕ → List (Call Comm × Payload)
  inside : ℕ → Bool

inductive Action where
  | enter (p : ℕ)
  | leave (p : ℕ)

variable {Comm : Type u} {Local : Type v}

/-- The buffers of the processes that have entered their `n`th call. -/
def State.sent (state : State Comm Local) (n p : ℕ) : Option Payload :=
  ((state.history p)[n]?).map Prod.snd

namespace Program

variable (program : Program Comm Local)

/-- No process has entered a call. -/
def initial : State Comm Local := ⟨program.start, fun _ => [], fun _ => false⟩

/-- A step of one process; `none` where it has to wait. -/
def step (state : State Comm Local) : Action → Option (State Comm Local)
  | .enter p =>
      match program.act p (state.locals p) with
      | .finished => none
      | .call call sent _ =>
          if p < program.size ∧ state.inside p = false then
            some { state with
              history := Function.update state.history p (state.history p ++ [(call, sent)])
              inside := Function.update state.inside p true }
          else
            none
  | .leave p =>
      match program.act p (state.locals p) with
      | .finished => none
      | .call call _ resume =>
          if p < program.size ∧ state.inside p = true then
            (call.result program.size (state.sent ((state.history p).length - 1))).map fun got =>
              { state with
                locals := Function.update state.locals p (resume got)
                inside := Function.update state.inside p false }
          else
            none

/-- The system of the processes. -/
def system : System (State Comm Local) Action :=
  System.computed (· = program.initial) program.step

/-- A process has nothing left to do. -/
def Finished (state : State Comm Local) (p : ℕ) : Prop :=
  program.act p (state.locals p) = .finished ∧ state.inside p = false

/-- A step that no implementation may delay further: a process that returns from a call does so
after all have entered it. -/
def Due (state : State Comm Local) : Action → Prop
  | .enter _ => True
  | .leave p => ∀ q < program.size, (state.history p).length ≤ (state.history q).length

/-- The processes take one call after the other together, from `locals` to `final`. -/
inductive Lockstep : (ℕ → Local) → List (Call Comm) → (ℕ → Local) → Prop where
  | finished {locals : ℕ → Local}
      (done : ∀ p < program.size, program.act p (locals p) = .finished) :
      Lockstep locals [] locals
  | call {locals final : ℕ → Local} {call : Call Comm} {got : Payload} {rest : List (Call Comm)}
      (sent : ℕ → Payload) (resume : ℕ → Payload → Local)
      (acts : ∀ p < program.size, program.act p (locals p) = .call call (sent p) (resume p))
      (rooted : call.Rooted program.size)
      (sends : ∀ p < program.size, call.Sends p (sent p))
      (result : call.result program.size (fun p => some (sent p)) = some got)
      (later : Lockstep (fun p => resume p got) rest final) :
      Lockstep locals (call :: rest) final

/-! ### What a step does -/

/-- The steps. -/
inductive Stepped (state : State Comm Local) : Action → State Comm Local → Prop where
  | enter {p : ℕ} {call : Call Comm} {sent : Payload} {resume : Payload → Local}
      (bounded : p < program.size) (outside : state.inside p = false)
      (act : program.act p (state.locals p) = .call call sent resume) :
      Stepped state (.enter p) { state with
        history := Function.update state.history p (state.history p ++ [(call, sent)])
        inside := Function.update state.inside p true }
  | leave {p : ℕ} {call : Call Comm} {sent : Payload} {resume : Payload → Local} {got : Payload}
      (bounded : p < program.size) (inside : state.inside p = true)
      (act : program.act p (state.locals p) = .call call sent resume)
      (result : call.result program.size (state.sent ((state.history p).length - 1)) = some got) :
      Stepped state (.leave p) { state with
        locals := Function.update state.locals p (resume got)
        inside := Function.update state.inside p false }

variable {program}

theorem stepped_iff {state next : State Comm Local} {action : Action} :
    program.step state action = some next ↔ program.Stepped state action next := by
  constructor
  · intro taken
    cases action with
    | enter p =>
        rw [step] at taken
        split at taken
        · cases taken
        · rename_i act
          obtain ⟨⟨bounded, outside⟩, same⟩ := Option.ite_none_right_eq_some.mp taken
          cases same
          exact .enter bounded outside act
    | leave p =>
        rw [step] at taken
        split at taken
        · cases taken
        · rename_i act
          obtain ⟨⟨bounded, inside⟩, returned⟩ := Option.ite_none_right_eq_some.mp taken
          obtain ⟨got, result, rfl⟩ := Option.map_eq_some_iff.mp returned
          exact .leave bounded inside act result
  · rintro (⟨bounded, outside, act⟩ | ⟨bounded, inside, act, result⟩)
    · simp only [step, act]
      exact if_pos ⟨bounded, outside⟩
    · simp only [step, act, result]
      exact if_pos ⟨bounded, inside⟩

/-! ### Scripts -/

/-- All processes take a call together. -/
structure Round (program : Program Comm Local) (call : Call Comm) (before : ℕ → Local)
    (sent : ℕ → Payload) (after : ℕ → Local) : Prop where
  rooted : call.Rooted program.size
  sends : ∀ p < program.size, call.Sends p (sent p)
  acts : ∃ got, call.result program.size (fun p => some (sent p)) = some got ∧
    ∀ p < program.size, ∃ resume, program.act p (before p) = .call call (sent p) resume ∧
      after p = resume got

/-- What the processes send in each call and where they are before it. -/
structure Script (program : Program Comm Local) (locals : ℕ → Local) (calls : List (Call Comm))
    (final : ℕ → Local) where
  sent : ℕ → ℕ → Payload
  stage : ℕ → ℕ → Local
  first : stage 0 = locals
  last : stage calls.length = final
  done : ∀ p < program.size, program.act p (final p) = .finished
  round : ∀ n call, calls[n]? = some call →
    program.Round call (stage n) (sent n) (stage (n + 1))

/-- Processes that run in lockstep follow a script. -/
theorem Lockstep.exists_script {locals final : ℕ → Local} {calls : List (Call Comm)}
    (lockstep : program.Lockstep locals calls final) :
    Nonempty (program.Script locals calls final) := by
  induction lockstep with
  | @finished locals done =>
      exact ⟨fun _ _ => .bytes [], fun _ => locals, rfl, rfl, done,
        fun n call listed => by cases listed⟩
  | @call locals final call got rest sent resume acts rooted sends result later ih =>
      obtain ⟨script⟩ := ih
      refine ⟨fun n => Nat.casesOn n sent script.sent, fun n => Nat.casesOn n locals script.stage,
        rfl, script.last, script.done, fun n other listed => ?_⟩
      cases n with
      | zero =>
          cases listed
          refine ⟨rooted, sends, got, result, fun p bounded => ⟨resume p, acts p bounded, ?_⟩⟩
          exact congrFun script.first p
      | succ n => exact script.round n other listed

/-- What a call returns early is what it returns once all have entered it. -/
theorem result_of_available {call : Call Comm} {size : ℕ} {available : ℕ → Option Payload}
    {sent : ℕ → Payload} {got : Payload}
    (known : ∀ p payload, available p = some payload → payload = sent p)
    (early : call.result size available = some got) :
    call.result size (fun p => some (sent p)) = some got := by
  cases call with
  | bcast comm root count element =>
      change available root = some got at early
      exact congrArg some (known root got early).symm
  | allreduce comm op count element =>
      simp only [Call.result] at early ⊢
      obtain ⟨entered, reduced⟩ := Option.ite_none_right_eq_some.mp early
      have same : (List.range size).filterMap available =
          (List.range size).filterMap fun p => some (sent p) := by
        apply List.filterMap_congr
        intro p listed
        obtain ⟨payload, here⟩ := Option.isSome_iff_exists.mp (entered p listed)
        rw [here, known p payload here]
      have all : ∀ p ∈ List.range size, (some (sent p)).isSome = true := fun _ _ => rfl
      rw [if_pos all, ← same]
      exact reduced
  | free comm => exact early
  | finalize => exact early

/-- Once all processes have entered a call, it returns. -/
theorem exists_result {call : Call Comm} {size : ℕ} {available : ℕ → Option Payload}
    (rooted : call.Rooted size) (entered : ∀ p < size, (available p).isSome = true) :
    ∃ got, call.result size available = some got := by
  cases call with
  | bcast comm root count element => exact Option.isSome_iff_exists.mp (entered root rooted)
  | allreduce comm op count element =>
      exact ⟨_, if_pos fun p listed => entered p (List.mem_range.mp listed)⟩
  | free comm => exact ⟨_, rfl⟩
  | finalize => exact ⟨_, rfl⟩

namespace Script

variable {locals final : ℕ → Local} {calls : List (Call Comm)}
  (script : program.Script locals calls final)

/-- The first `n` calls of a process, with what it sends. -/
def entries (p n : ℕ) : List (Call Comm × Payload) :=
  (calls.take n).mapIdx fun k call => (call, script.sent k p)

/-- A process has completed `n` calls of the script. -/
structure Follows (state : State Comm Local) (p n : ℕ) : Prop where
  within : n ≤ calls.length
  position : state.locals p = script.stage n p
  history : state.history p = script.entries p (n + (state.inside p).toNat)
  entered : state.inside p = true → n < calls.length

/-- All processes follow the script. -/
structure Covers (state : State Comm Local) : Prop where
  follows : ∀ p < program.size, ∃ n, script.Follows state p n
  others : ∀ p, program.size ≤ p → state.history p = []

theorem length_entries {p n : ℕ} (within : n ≤ calls.length) :
    (script.entries p n).length = n := by
  rw [entries, List.length_mapIdx, List.length_take, Nat.min_eq_left within]

theorem entries_succ {p n : ℕ} {call : Call Comm} (listed : calls[n]? = some call) :
    script.entries p (n + 1) = script.entries p n ++ [(call, script.sent n p)] := by
  obtain ⟨inside, rfl⟩ := List.getElem?_eq_some_iff.mp listed
  rw [entries, List.take_succ_eq_append_getElem inside, List.mapIdx_append, entries]
  simp [Nat.min_eq_left (Nat.le_of_lt inside)]

/-- Every entry of a history is the script's. -/
theorem getElem?_entries {p n k : ℕ} {entry : Call Comm × Payload}
    (listed : (script.entries p n)[k]? = some entry) :
    calls[k]? = some entry.1 ∧ entry.2 = script.sent k p := by
  rw [entries, List.getElem?_mapIdx] at listed
  obtain ⟨call, here, rfl⟩ := Option.map_eq_some_iff.mp listed
  refine ⟨?_, rfl⟩
  rw [List.getElem?_take] at here
  exact (Option.ite_none_right_eq_some.mp here).2

variable {script} {state next : State Comm Local}

/-- The buffers that are known are the script's. -/
theorem Covers.sent_eq (covers : script.Covers state) {p n : ℕ} {payload : Payload}
    (known : state.sent n p = some payload) : payload = script.sent n p := by
  obtain ⟨entry, here, rfl⟩ := Option.map_eq_some_iff.mp known
  rcases Nat.lt_or_ge p program.size with bounded | outside
  · obtain ⟨m, follows⟩ := covers.follows p bounded
    rw [follows.history] at here
    exact (getElem?_entries script here).2
  · rw [covers.others p outside] at here
    cases here

/-- A process between two calls of the script makes the next of them. -/
theorem Follows.call_eq {p n : ℕ} (follows : script.Follows state p n)
    (bounded : p < program.size) {call : Call Comm} {sent : Payload} {resume : Payload → Local}
    (act : program.act p (state.locals p) = .call call sent resume) :
    calls[n]? = some call ∧ sent = script.sent n p ∧
      ∃ got, call.result program.size (fun p => some (script.sent n p)) = some got ∧
        script.stage (n + 1) p = resume got := by
  rw [follows.position] at act
  rcases Nat.lt_or_eq_of_le follows.within with inside | rfl
  · have listed : calls[n]? = some calls[n] := List.getElem?_eq_getElem inside
    obtain ⟨got, result, rounds⟩ := (script.round n _ listed).acts
    obtain ⟨resume', act', after⟩ := rounds p bounded
    rw [act] at act'
    cases act'
    exact ⟨listed, rfl, got, result, after⟩
  · rw [script.last, script.done p bounded] at act
    cases act

theorem covers_initial (script : program.Script program.start calls final) :
    script.Covers program.initial := by
  refine ⟨fun p _ => ⟨0, Nat.zero_le _, (congrFun script.first p).symm, rfl, ?_⟩, fun _ _ => rfl⟩
  intro inside
  cases inside

/-- Whether a process follows the script is about that process alone. -/
theorem Follows.of_same {p n : ℕ} (follows : script.Follows state p n)
    (locals : next.locals p = state.locals p) (history : next.history p = state.history p)
    (inside : next.inside p = state.inside p) : script.Follows next p n := by
  refine ⟨follows.within, locals.trans follows.position, ?_, ?_⟩
  · rw [history, inside]
    exact follows.history
  · rw [inside]
    exact follows.entered

/-- Every step follows the script. -/
theorem Covers.step (covers : script.Covers state) {action : Action}
    (taken : program.step state action = some next) : script.Covers next := by
  cases stepped_iff.mp taken with
  | @enter p call sent resume bounded outside act =>
      refine ⟨fun q below => ?_, fun q above => ?_⟩
      · obtain ⟨n, follows⟩ := covers.follows q below
        refine ⟨n, ?_⟩
        by_cases own : q = p
        · subst own
          obtain ⟨listed, rfl, _⟩ := follows.call_eq bounded act
          refine ⟨follows.within, follows.position, ?_, fun _ => ?_⟩
          · have before := follows.history
            rw [outside] at before
            simp only [Function.update_self]
            rw [before]
            exact (entries_succ script listed).symm
          · exact (List.getElem?_eq_some_iff.mp listed).1
        · exact follows.of_same rfl (Function.update_of_ne own _ _) (Function.update_of_ne own _ _)
      · have own : q ≠ p := by omega
        exact (Function.update_of_ne own _ _).trans (covers.others q above)
  | @leave p call sent resume got bounded inside act result =>
      refine ⟨fun q below => ?_, covers.others⟩
      obtain ⟨n, follows⟩ := covers.follows q below
      by_cases own : q = p
      · subst own
        refine ⟨n + 1, ?_⟩
        obtain ⟨listed, rfl, got', result', after⟩ := follows.call_eq bounded act
        have entered := follows.entered inside
        have history := follows.history
        rw [inside] at history
        have number : (state.history q).length - 1 = n := by
          rw [history]
          exact congrArg (· - 1) (length_entries script entered)
        rw [number] at result
        have same := result_of_available (fun p payload => covers.sent_eq) result
        rw [result'] at same
        refine ⟨entered, ?_, ?_, fun inside' => ?_⟩
        · simp only [Function.update_self]
          rw [after, Option.some.inj same]
        · simp only [Function.update_self]
          exact history
        · simp only [Function.update_self] at inside'
          cases inside'
      · exact ⟨n, follows.of_same (Function.update_of_ne own _ _) rfl
          (Function.update_of_ne own _ _)⟩

theorem covers_of_reachable (script : program.Script program.start calls final)
    (reachable : program.system.Reachable state) : script.Covers state :=
  reachable.invariant (fun initial => initial ▸ covers_initial script)
    (fun covers taken => covers.step taken)

theorem map_fst_entries (p n : ℕ) : (script.entries p n).map Prod.fst = calls.take n := by
  apply List.ext_getElem?
  intro k
  rw [entries, List.getElem?_map, List.getElem?_mapIdx, Option.map_map]
  exact congrFun Option.map_id _

/-- The calls of a process are the first calls of the script. -/
theorem Covers.calls_first (covers : script.Covers state) {p : ℕ} (bounded : p < program.size) :
    (state.history p).map Prod.fst <+: calls := by
  obtain ⟨n, follows⟩ := covers.follows p bounded
  rw [follows.history, map_fst_entries]
  exact List.take_prefix _ _

/-- A process sends what its calls announce. -/
theorem Covers.sends (covers : script.Covers state) {p n : ℕ} (bounded : p < program.size)
    {entry : Call Comm × Payload} (listed : (state.history p)[n]? = some entry) :
    entry.1.Sends p entry.2 := by
  obtain ⟨m, follows⟩ := covers.follows p bounded
  rw [follows.history] at listed
  obtain ⟨here, sent⟩ := getElem?_entries script listed
  rw [sent]
  exact (script.round n _ here).sends p bounded

/-- A process with nothing left to do is at the end of the script. -/
theorem Follows.eq_length {p n : ℕ} (follows : script.Follows state p n)
    (bounded : p < program.size) (done : program.act p (state.locals p) = .finished) :
    n = calls.length := by
  rcases Nat.lt_or_eq_of_le follows.within with inside | last
  · obtain ⟨_, _, rounds⟩ := (script.round n _ (List.getElem?_eq_getElem inside)).acts
    obtain ⟨_, act, _⟩ := rounds p bounded
    rw [follows.position, act] at done
    cases done
  · exact last

/-- A finished process has made all calls of the script. -/
theorem Covers.finished (covers : script.Covers state) {p : ℕ} (bounded : p < program.size)
    (finished : program.Finished state p) :
    (state.history p).map Prod.fst = calls ∧ state.locals p = final p := by
  obtain ⟨n, follows⟩ := covers.follows p bounded
  have last := follows.eq_length bounded finished.1
  refine ⟨?_, ?_⟩
  · rw [follows.history, map_fst_entries, finished.2, last]
    exact List.take_length
  · rw [follows.position, last, script.last]

/-- What every step of a process keeps, holds where the script ends. -/
theorem Follows.keeps {P : ℕ → Local → Prop} {p n : ℕ} (follows : script.Follows state p n)
    (bounded : p < program.size)
    (kept : ∀ process call sent resume got, program.act p process = .call call sent resume →
      P p process → P p (resume got))
    (holds : P p (state.locals p)) : P p (final p) := by
  have later : ∀ k, n ≤ k → k ≤ calls.length → P p (script.stage k p) := by
    intro k after
    induction k, after using Nat.le_induction with
    | base => exact fun _ => follows.position ▸ holds
    | succ k _ ih =>
        intro inside
        obtain ⟨got, _, rounds⟩ := (script.round k _ (List.getElem?_eq_getElem inside)).acts
        obtain ⟨resume, act, next⟩ := rounds p bounded
        rw [next]
        exact kept _ _ _ _ _ act (ih (Nat.le_of_lt inside))
  rw [← script.last]
  exact later _ follows.within (Nat.le_refl _)

/-- A process inside a call can return once all have entered it. -/
theorem Covers.leave (covers : script.Covers state) {p : ℕ} (bounded : p < program.size)
    (inside : state.inside p = true)
    (entered : ∀ q < program.size, (state.history p).length ≤ (state.history q).length) :
    ∃ next, program.step state (.leave p) = some next := by
  obtain ⟨n, follows⟩ := covers.follows p bounded
  have length : (state.history p).length = n + 1 := by
    rw [follows.history, inside]
    exact length_entries script (follows.entered inside)
  have some_call := follows.entered inside
  have round := script.round n _ (List.getElem?_eq_getElem some_call)
  obtain ⟨_, _, rounds⟩ := round.acts
  obtain ⟨resume, act, _⟩ := rounds p bounded
  rw [← follows.position] at act
  have known : ∀ q < program.size, (state.sent n q).isSome = true := by
    intro q below
    have long := entered q below
    rw [State.sent, Option.isSome_map, List.getElem?_eq_getElem (by omega)]
    rfl
  obtain ⟨got, result⟩ := exists_result round.rooted known
  have here : calls[n].result program.size (state.sent ((state.history p).length - 1)) =
      some got := by
    rw [length]
    exact result
  exact ⟨_, stepped_iff.mpr (.leave bounded inside act here)⟩

/-- Unless all processes have finished, one of them can take a step that is due. -/
theorem Covers.progress (covers : script.Covers state)
    (unfinished : ∃ p < program.size, ¬ program.Finished state p) :
    ∃ action next, program.step state action = some next ∧ program.Due state action := by
  by_cases between : ∃ p < program.size, state.inside p = false ∧
      program.act p (state.locals p) ≠ .finished
  · obtain ⟨p, bounded, outside, busy⟩ := between
    cases act : program.act p (state.locals p) with
    | finished => exact absurd act busy
    | call call sent resume =>
        exact ⟨.enter p, _, stepped_iff.mpr (.enter bounded outside act), trivial⟩
  · have waiting : ∀ q < program.size, state.inside q = false →
        program.act q (state.locals q) = .finished := fun q below outside => by
      by_contra busy
      exact between ⟨q, below, outside, busy⟩
    obtain ⟨p, bounded, busy⟩ := unfinished
    have inside : state.inside p = true := by
      by_contra outside
      have outside := Bool.eq_false_iff.mpr outside
      exact busy ⟨waiting p bounded outside, outside⟩
    -- of the processes inside a call, one that has entered the fewest calls
    obtain ⟨first, listed, fewest⟩ := Finset.exists_min_image
      ((Finset.range program.size).filter fun q => state.inside q = true)
      (fun q => (state.history q).length) ⟨p, by simp [bounded, inside]⟩
    obtain ⟨range, inside'⟩ := Finset.mem_filter.mp listed
    have bounded' := Finset.mem_range.mp range
    have entered : ∀ q < program.size,
        (state.history first).length ≤ (state.history q).length := by
      intro q below
      by_cases here : state.inside q = true
      · exact fewest q (Finset.mem_filter.mpr ⟨Finset.mem_range.mpr below, here⟩)
      · have outside := Bool.eq_false_iff.mpr here
        obtain ⟨n, follows⟩ := covers.follows q below
        have last := follows.eq_length below (waiting q below outside)
        obtain ⟨m, earlier⟩ := covers.follows first bounded'
        rw [follows.history, earlier.history, outside, inside', Bool.toNat_false, Nat.add_zero,
          length_entries script follows.within, last]
        exact (length_entries script (earlier.entered inside')).trans_le (earlier.entered inside')
    obtain ⟨next, taken⟩ := covers.leave bounded' inside' entered
    exact ⟨.leave first, next, taken, entered⟩

/-- How far a process has come: two for each call, less one inside of it. -/
def progressOf (state : State Comm Local) (p : ℕ) : ℕ :=
  2 * (state.history p).length - (state.inside p).toNat

/-- Every step brings one process one step on. -/
theorem Covers.sum_progressOf (covers : script.Covers state) {action : Action}
    (taken : program.step state action = some next) :
    ∑ p ∈ Finset.range program.size, progressOf next p =
      ∑ p ∈ Finset.range program.size, progressOf state p + 1 := by
  cases stepped_iff.mp taken with
  | @enter p call sent resume bounded outside act =>
      refine sum_succ (Finset.mem_range.mpr bounded) ?_ fun q _ other => ?_
      · simp only [progressOf, Function.update_self, outside, List.length_append,
          List.length_singleton, Bool.toNat_true, Bool.toNat_false]
        omega
      · simp only [progressOf, Function.update_of_ne other]
  | @leave p call sent resume got bounded inside act result =>
      obtain ⟨n, follows⟩ := covers.follows p bounded
      have some_entry : (state.history p).length = n + 1 := by
        rw [follows.history, inside]
        exact length_entries script (follows.entered inside)
      refine sum_succ (Finset.mem_range.mpr bounded) ?_ fun q _ other => ?_
      · simp only [progressOf, Function.update_self, inside, some_entry, Bool.toNat_true,
          Bool.toNat_false]
        omega
      · simp only [progressOf, Function.update_of_ne other]

/-- A process has at most two steps for each call. -/
theorem Covers.progressOf_le (covers : script.Covers state) {p : ℕ}
    (bounded : p < program.size) : progressOf state p ≤ 2 * calls.length := by
  obtain ⟨n, follows⟩ := covers.follows p bounded
  have within : n + (state.inside p).toNat ≤ calls.length := by
    cases inside : state.inside p with
    | false => exact follows.within
    | true => exact follows.entered inside
  rw [progressOf, follows.history, length_entries script within]
  omega

/-- A run has at most two steps for each call of each process. -/
theorem length_le (script : program.Script program.start calls final)
    {trace : List (Transition (State Comm Local) Action)}
    (run : program.system.Steps program.initial trace state) :
    trace.length ≤ program.size * (2 * calls.length) := by
  have counted : script.Covers state ∧
      trace.length = ∑ p ∈ Finset.range program.size, progressOf state p := by
    refine run.accumulates (P := fun trace state => script.Covers state ∧
      trace.length = ∑ p ∈ Finset.range program.size, progressOf state p) ?_ ?_
    · exact ⟨covers_initial script, (Finset.sum_eq_zero fun _ _ => rfl).symm⟩
    · rintro trace state action next _ ⟨covers, length⟩ taken
      refine ⟨covers.step taken, ?_⟩
      rw [List.length_append, List.length_singleton, length, covers.sum_progressOf taken]
  rw [counted.2]
  refine (Finset.sum_le_card_nsmul _ _ _ fun p listed =>
    counted.1.progressOf_le (Finset.mem_range.mp listed)).trans_eq ?_
  rw [Finset.card_range]
  rfl

end Script

/-! ### What lockstep says about every run -/

namespace Lockstep

variable {calls : List (Call Comm)} {final : ℕ → Local} {state : State Comm Local}
  (lockstep : program.Lockstep program.start calls final)
include lockstep

/-- In every reachable state the calls of a process are the first of those in lockstep. -/
theorem calls_first (reachable : program.system.Reachable state) {p : ℕ}
    (bounded : p < program.size) : (state.history p).map Prod.fst <+: calls := by
  obtain ⟨script⟩ := lockstep.exists_script
  exact (Script.covers_of_reachable script reachable).calls_first bounded

/-- In every reachable state a process has sent what its calls announce. -/
theorem sends (reachable : program.system.Reachable state) {p n : ℕ} (bounded : p < program.size)
    {entry : Call Comm × Payload} (listed : (state.history p)[n]? = some entry) :
    entry.1.Sends p entry.2 := by
  obtain ⟨script⟩ := lockstep.exists_script
  exact (Script.covers_of_reachable script reachable).sends bounded listed

/-- A process that has finished has made all the calls and is where lockstep leaves it. -/
theorem of_finished (reachable : program.system.Reachable state) {p : ℕ}
    (bounded : p < program.size) (finished : program.Finished state p) :
    (state.history p).map Prod.fst = calls ∧ state.locals p = final p := by
  obtain ⟨script⟩ := lockstep.exists_script
  exact (Script.covers_of_reachable script reachable).finished bounded finished

/-- The calls that two processes enter in the same place are the same. -/
theorem matching (reachable : program.system.Reachable state) {p q n : ℕ}
    (bounded : p < program.size) (below : q < program.size) {own other : Call Comm × Payload}
    (listed : (state.history p)[n]? = some own) (listed' : (state.history q)[n]? = some other) :
    own.1 = other.1 := by
  have place : ∀ {r : ℕ} {entry : Call Comm × Payload}, r < program.size →
      (state.history r)[n]? = some entry → calls[n]? = some entry.1 := by
    intro r entry inside here
    obtain ⟨within, rfl⟩ := List.getElem?_eq_some_iff.mp here
    have mapped := List.prefix_iff_getElem?.mp (lockstep.calls_first reachable inside) n
      (by rw [List.length_map]; exact within)
    rw [List.getElem_map] at mapped
    exact mapped
  exact Option.some.inj ((place bounded listed).symm.trans (place below listed'))

/-- What every step of a process keeps, holds where lockstep leaves the process. -/
theorem keeps {P : ℕ → Local → Prop} (reachable : program.system.Reachable state) {p : ℕ}
    (bounded : p < program.size)
    (kept : ∀ process call sent resume got, program.act p process = .call call sent resume →
      P p process → P p (resume got))
    (holds : P p (state.locals p)) : P p (final p) := by
  obtain ⟨script⟩ := lockstep.exists_script
  obtain ⟨n, follows⟩ := (Script.covers_of_reachable script reachable).follows p bounded
  exact follows.keeps bounded kept holds

/-- No process waits for ever, even if calls return as late as they may. -/
theorem progress (reachable : program.system.Reachable state)
    (unfinished : ∃ p < program.size, ¬ program.Finished state p) :
    ∃ action next, program.step state action = some next ∧ program.Due state action := by
  obtain ⟨script⟩ := lockstep.exists_script
  exact (Script.covers_of_reachable script reachable).progress unfinished

/-- A run has at most two steps for each call of each process. -/
theorem length_le {trace : List (Transition (State Comm Local) Action)}
    (run : program.system.Steps program.initial trace state) :
    trace.length ≤ program.size * (2 * calls.length) := by
  obtain ⟨script⟩ := lockstep.exists_script
  exact script.length_le run

end Lockstep

end Program

end HandsOn.Mpi.Collective
