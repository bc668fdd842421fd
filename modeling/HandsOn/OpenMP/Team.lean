import HandsOn.Semantics.Transition
import Mathlib.Data.Fintype.Basic
import Mathlib.Data.List.FinRange
import Mathlib.Logic.Function.Basic

/-!
# Teams of threads

The threads of a team share a store. Between two barriers each thread has a list of items,
which it executes in order; the items of different threads are executed in any order. Where
the items of different threads commute, every run passes a barrier with the store that the
threads leave one after the other.
-/

namespace HandsOn.OpenMP

open Semantics

universe u v

/-- What the threads of a team do in each phase, up to the barrier that ends it. -/
structure Team (threads : ℕ) (Item : Type u) (Store : Type v) where
  phases : ℕ
  work : ℕ → Fin threads → List Item
  exec : Fin threads → Item → Store → Store

/-- The items that remain to the threads in the current phase, and the store. -/
structure State (threads : ℕ) (Item : Type u) (Store : Type v) where
  phase : ℕ
  todo : Fin threads → List Item
  store : Store

inductive Action (threads : ℕ) where
  | work (thread : Fin threads)
  | barrier

/-- The items of all threads, thread by thread. -/
def pending {threads : ℕ} {Item : Type u} (todo : Fin threads → List Item) :
    List (Fin threads × Item) :=
  (List.finRange threads).flatMap fun thread => (todo thread).map (thread, ·)

variable {threads : ℕ} {Item : Type u} {Store : Type v}

namespace Team

variable (team : Team threads Item Store)

/-- The items of a phase; after the last phase there are none. -/
def workAt (phase : ℕ) : Fin threads → List Item :=
  if phase < team.phases then team.work phase else fun _ => []

/-- The team before its first phase. -/
def start (store : Store) : State threads Item Store := ⟨0, team.workAt 0, store⟩

/-- A step of one thread, or of all through the barrier. -/
def step (state : State threads Item Store) : Action threads → Option (State threads Item Store)
  | .work thread =>
      match state.todo thread with
      | [] => none
      | item :: rest =>
          some { state with
            todo := Function.update state.todo thread rest
            store := team.exec thread item state.store }
  | .barrier =>
      if state.phase < team.phases ∧ ∀ thread, (state.todo thread).isEmpty then
        some ⟨state.phase + 1, team.workAt (state.phase + 1), state.store⟩
      else
        none

/-- The runs of a team from a store. -/
def system (store : Store) : System (State threads Item Store) (Action threads) :=
  System.computed (· = team.start store) team.step

/-- The team has passed the barrier before `phase`, and no thread has gone on. -/
structure AtBarrier (phase : ℕ) (state : State threads Item Store) : Prop where
  phase_eq : state.phase = phase
  todo_eq : state.todo = team.workAt phase

/-- Execute items one after the other. -/
def runItems (items : List (Fin threads × Item)) (store : Store) : Store :=
  items.foldl (fun store entry => team.exec entry.1 entry.2 store) store

/-- The store before a phase, if the threads take turns. -/
def sequential (store : Store) : ℕ → Store
  | 0 => store
  | phase + 1 => team.runItems (pending (team.workAt phase)) (sequential store phase)

/-- Items of different threads commute where `P` holds, which all items keep. -/
structure Independent (work : Fin threads → List Item) (P : Store → Prop) : Prop where
  keeps : ∀ thread, ∀ item ∈ work thread, ∀ store, P store → P (team.exec thread item store)
  commute : ∀ thread other, thread ≠ other → ∀ item ∈ work thread, ∀ item' ∈ work other,
    ∀ store, P store → team.exec thread item (team.exec other item' store) =
      team.exec other item' (team.exec thread item store)

variable {team}

/-! ### The items that remain -/

/-- Taking one item of a thread from those that remain. -/
theorem pending_split {todo : Fin threads → List Item} {thread : Fin threads} {item : Item}
    {rest : List Item} (next : todo thread = item :: rest) :
    ∃ before after, pending todo = before ++ (thread, item) :: after ∧
      pending (Function.update todo thread rest) = before ++ after ∧
      ∀ entry ∈ before, entry.1 ≠ thread ∧ entry.2 ∈ todo entry.1 := by
  obtain ⟨front, back, split⟩ := List.append_of_mem (List.mem_finRange thread)
  have nodup := List.nodup_finRange threads
  rw [split, List.nodup_middle] at nodup
  have absent := (List.nodup_cons.mp nodup).1
  have others : ∀ other ∈ front ++ back, Function.update todo thread rest other = todo other := by
    rintro other listed
    refine Function.update_of_ne ?_ _ _
    rintro rfl
    exact absent listed
  refine ⟨front.flatMap fun thread => (todo thread).map (thread, ·),
    rest.map (thread, ·) ++ back.flatMap fun thread => (todo thread).map (thread, ·), ?_, ?_, ?_⟩
  · rw [pending, split, List.flatMap_append, List.flatMap_cons, next]
    rfl
  · have front_same := List.flatMap_congr fun other listed =>
      congrArg (List.map (other, ·)) (others other (List.mem_append_left back listed))
    have back_same := List.flatMap_congr fun other listed =>
      congrArg (List.map (other, ·)) (others other (List.mem_append_right front listed))
    rw [pending, split, List.flatMap_append, List.flatMap_cons, front_same, back_same,
      Function.update_self]
  · intro entry listed
    obtain ⟨other, inside, here⟩ := List.mem_flatMap.mp listed
    obtain ⟨item', listed', rfl⟩ := List.mem_map.mp here
    refine ⟨?_, listed'⟩
    rintro rfl
    exact absent (List.mem_append_left back inside)

theorem pending_empty {todo : Fin threads → List Item} (empty : ∀ thread, todo thread = []) :
    pending todo = [] := by
  rw [pending, List.flatMap_eq_nil_iff]
  intro thread _
  rw [empty thread, List.map_nil]

/-! ### Independent items -/

/-- Fewer items are independent too. -/
theorem Independent.mono {work todo : Fin threads → List Item} {P : Store → Prop}
    (independent : team.Independent work P) (listed : ∀ thread, todo thread ⊆ work thread) :
    team.Independent todo P where
  keeps thread item inside := independent.keeps thread item (listed thread inside)
  commute thread other apart item inside item' inside' :=
    independent.commute thread other apart item (listed thread inside) item' (listed other inside')

/-- An item can be executed before items of other threads. -/
theorem Independent.first {todo : Fin threads → List Item} {P : Store → Prop}
    (independent : team.Independent todo P) {thread : Fin threads} {item : Item}
    (own : item ∈ todo thread) {before : List (Fin threads × Item)}
    (others : ∀ entry ∈ before, entry.1 ≠ thread ∧ entry.2 ∈ todo entry.1) {store : Store}
    (holds : P store) :
    team.exec thread item (team.runItems before store) =
      team.runItems before (team.exec thread item store) := by
  induction before generalizing store with
  | nil => rfl
  | cons entry rest ih =>
      obtain ⟨apart, listed⟩ := others entry List.mem_cons_self
      have later := ih (fun entry inside => others entry (List.mem_cons_of_mem _ inside))
        (independent.keeps entry.1 entry.2 listed store holds)
      rw [runItems, List.foldl_cons]
      refine later.trans ?_
      rw [independent.commute thread entry.1 apart.symm item own entry.2 listed store holds]
      rfl

/-- Whichever thread goes on, the items that remain lead to the same store. -/
theorem Independent.runItems_pending {todo : Fin threads → List Item} {P : Store → Prop}
    (independent : team.Independent todo P) {thread : Fin threads} {item : Item}
    {rest : List Item} (next : todo thread = item :: rest) {store : Store} (holds : P store) :
    team.runItems (pending (Function.update todo thread rest)) (team.exec thread item store) =
      team.runItems (pending todo) store := by
  obtain ⟨before, after, all, fewer, others⟩ := pending_split next
  have own : item ∈ todo thread := by
    rw [next]
    exact List.mem_cons_self
  rw [all, fewer, runItems, runItems, List.foldl_append, List.foldl_append, List.foldl_cons]
  exact congrArg (fun store => team.runItems after store)
    (independent.first own others holds).symm

/-! ### Every run -/

/-- Where a run is: the remaining items lead to the store before the next phase. -/
structure Follows (team : Team threads Item Store) (P : ℕ → Store → Prop) (origin : Store)
    (state : State threads Item Store) : Prop where
  bounded : state.phase ≤ team.phases
  remaining : ∀ thread, state.todo thread <:+ team.workAt state.phase thread
  holds : P state.phase state.store
  determined : team.runItems (pending state.todo) state.store =
    team.sequential origin (state.phase + 1)
  fresh : state.todo = team.workAt state.phase → state.store = team.sequential origin state.phase

section

variable {P : ℕ → Store → Prop} {origin : Store} {state next : State threads Item Store}

theorem follows_start (begins : ∀ phase, P phase (team.sequential origin phase)) :
    team.Follows P origin (team.start origin) where
  bounded := Nat.zero_le _
  remaining _ := List.suffix_refl _
  holds := begins 0
  determined := rfl
  fresh _ := rfl

theorem Follows.work (follows : team.Follows P origin state)
    (independent : ∀ phase, team.Independent (team.workAt phase) (P phase)) {thread : Fin threads}
    {item : Item} {rest : List Item} (listed : state.todo thread = item :: rest) :
    team.Follows P origin { state with
      todo := Function.update state.todo thread rest
      store := team.exec thread item state.store } := by
  have inside : ∀ other, state.todo other ⊆ team.workAt state.phase other := fun other =>
    (follows.remaining other).subset
  have here := (independent state.phase).mono inside
  have suffix := follows.remaining thread
  rw [listed] at suffix
  refine ⟨follows.bounded, fun other => ?_, ?_, ?_, fun full => ?_⟩
  · by_cases own : other = thread
    · subst own
      simp only [Function.update_self]
      exact (List.suffix_cons item rest).trans suffix
    · simp only [Function.update_of_ne own]
      exact follows.remaining other
  · refine here.keeps thread item ?_ state.store follows.holds
    rw [listed]
    exact List.mem_cons_self
  · rw [← follows.determined]
    exact here.runItems_pending listed follows.holds
  · -- the thread has fewer items left than the phase gave it
    have same := congrFun full thread
    simp only [Function.update_self] at same
    have shorter := suffix.length_le
    rw [← same, List.length_cons] at shorter
    exact absurd shorter (Nat.not_succ_le_self _)

theorem Follows.barrier (follows : team.Follows P origin state)
    (begins : ∀ phase, P phase (team.sequential origin phase))
    (more : state.phase < team.phases) (empty : ∀ thread, state.todo thread = []) :
    team.Follows P origin
      ⟨state.phase + 1, team.workAt (state.phase + 1), state.store⟩ := by
  have store := follows.determined
  rw [pending_empty empty] at store
  refine ⟨more, fun thread => List.suffix_refl _, ?_, ?_, fun _ => store⟩
  · have holds := begins (state.phase + 1)
    rw [← store] at holds
    exact holds
  · rw [sequential, ← store]
    rfl

/-- Every reachable state follows the sequential execution. -/
theorem follows_of_reachable
    (independent : ∀ phase, team.Independent (team.workAt phase) (P phase))
    (begins : ∀ phase, P phase (team.sequential origin phase))
    (reachable : (team.system origin).Reachable state) : team.Follows P origin state := by
  refine reachable.invariant (P := team.Follows P origin) ?_ ?_
  · rintro _ rfl
    exact follows_start begins
  · intro state action next follows taken
    cases action with
    | work thread =>
        simp only [system, System.computed, step] at taken
        split at taken
        · cases taken
        · rename_i listed
          cases taken
          exact follows.work independent listed
    | barrier =>
        simp only [system, System.computed, step] at taken
        obtain ⟨⟨more, empty⟩, same⟩ := Option.ite_none_right_eq_some.mp taken
        cases same
        exact follows.barrier begins more fun thread => List.isEmpty_iff.mp (empty thread)

/-- At a barrier every run has the store of the sequential execution. -/
theorem AtBarrier.store_eq {phase : ℕ} (barrier : team.AtBarrier phase state)
    (follows : team.Follows P origin state) : state.store = team.sequential origin phase := by
  rw [← barrier.phase_eq]
  refine follows.fresh ?_
  rw [barrier.phase_eq]
  exact barrier.todo_eq

end

/-! ### Runs exist -/

/-- All threads can execute the items that they have. -/
theorem exists_empty (team : Team threads Item Store) (origin : Store)
    (state : State threads Item Store) :
    ∃ trace next, (team.system origin).Steps state trace next ∧ next.phase = state.phase ∧
      ∀ thread, next.todo thread = [] := by
  induction count : (pending state.todo).length generalizing state with
  | zero =>
      refine ⟨[], state, .refl, rfl, fun thread => List.eq_nil_iff_forall_not_mem.mpr ?_⟩
      intro item listed
      have none : (thread, item) ∈ pending state.todo :=
        List.mem_flatMap.mpr
        ⟨thread, List.mem_finRange thread, List.mem_map.mpr ⟨item, listed, rfl⟩⟩
      rw [List.eq_nil_of_length_eq_zero count] at none
      cases none
  | succ count ih =>
      obtain ⟨entry, listed⟩ : ∃ entry, entry ∈ pending state.todo :=
        List.exists_mem_of_length_pos (by omega)
      obtain ⟨thread, _, here⟩ := List.mem_flatMap.mp listed
      obtain ⟨item', inside, _⟩ := List.mem_map.mp here
      obtain ⟨item, rest, split⟩ := List.exists_cons_of_ne_nil (List.ne_nil_of_mem inside)
      obtain ⟨before, after, all, fewer, _⟩ := pending_split split
      obtain ⟨trace, last, steps, phase, empty⟩ := ih { state with
          todo := Function.update state.todo thread rest
          store := team.exec thread item state.store } (by
        simp only [fewer]
        rw [all] at count
        simp only [List.length_append, List.length_cons] at count ⊢
        omega)
      have taken : (team.system origin).Step state (.work thread) { state with
          todo := Function.update state.todo thread rest
          store := team.exec thread item state.store } := by
        simp only [system, System.computed, step, split]
      exact ⟨_, last, (System.Steps.single taken).trans steps, phase, empty⟩

/-- Every barrier is reached by some run. -/
theorem exists_atBarrier (origin : Store) {phase : ℕ} (bounded : phase ≤ team.phases) :
    ∃ state, (team.system origin).Reachable state ∧ team.AtBarrier phase state := by
  induction phase with
  | zero => exact ⟨_, .initial rfl, rfl, rfl⟩
  | succ phase ih =>
      obtain ⟨state, reachable, barrier⟩ := ih (Nat.le_of_succ_le bounded)
      obtain ⟨trace, next, steps, same, empty⟩ := team.exists_empty origin state
      have here : next.phase = phase := same.trans barrier.phase_eq
      have taken : (team.system origin).Step next .barrier
          ⟨next.phase + 1, team.workAt (next.phase + 1), next.store⟩ := by
        refine if_pos ⟨by omega, fun thread => ?_⟩
        rw [empty thread]
        rfl
      refine ⟨_, (reachable.steps steps).steps (.single taken), ?_, ?_⟩
      · exact congrArg (· + 1) here
      · exact congrArg (fun phase => team.workAt (phase + 1)) here

end Team

end HandsOn.OpenMP
