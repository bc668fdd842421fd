import HandsOn.Pneo.Network

/-!
# pNeo with post, start, complete and wait

The window of a process has one integer for each in-connection. `compute_state` sums the
window and clears it. Every interleaving of the processes is the reference network: a spike
is counted once, by the place of its connection, in the next step.
-/

namespace HandsOn.Pneo

open HandsOn.Mpi HandsOn.Semantics

variable {numprocs : ℕ}

namespace Network

variable (network : Network numprocs) (maxSteps : ℕ)

/-- `num_incoming`. -/
def numIncoming (myrank : Fin numprocs) (inarray : ℕ → ℤ) : ℤ :=
  ((List.range (network.inranks myrank).length).map inarray).sum

/-- `compute_state`: the new state, and the window with the spikes reset. -/
def computeState (myrank : Fin numprocs) (state : ℤ) (inarray : ℕ → ℤ) : ℤ × (ℕ → ℤ) :=
  (state + network.numIncoming myrank inarray + 1,
    fun i => if i < (network.inranks myrank).length then 0 else inarray i)

/-- The processes of `pneo_pscw.c`. -/
def pscw : ActiveTarget.Program numprocs ℤ ℕ ℤ :=
  network.main maxSteps network.outranks network.inranks (fun _ _ => 0) network.computeState

/-- The state of a cell of the reference in the course of a step. -/
def stateAt (t : ℕ) (p : Fin numprocs) : ActiveTarget.Stage → ℕ
  | .compute => (network.reference t).state p
  | .post => network.potential (network.reference t) p
  | .start => network.potential (network.reference t) p
  | .put => network.potential (network.reference t) p
  | .complete => (network.reference (t + 1)).state p
  | .wait => (network.reference (t + 1)).state p

/-- Every interleaving of the processes is the reference network. -/
structure Synchronous : Prop where
  /-- `state` is that of the cell. -/
  states : ∀ state, (network.pscw maxSteps).system.Reachable state → ∀ p,
    state.priv p = network.stateAt (state.step p) p (state.stage p)
  /-- Before a process computes, the place of an in-connection holds the spike of the step
  before, if its source has fired in it. -/
  places : ∀ state, (network.pscw maxSteps).system.Reachable state →
    ∀ connection ∈ network.connarray, state.stage connection.dest = .compute →
      state.window connection.dest
          (dispcnt connection.source connection.dest network.connarray) =
        if (network.reference (state.step connection.dest)).fired connection.source then 1 else 0
  /-- The spikes are counted once. -/
  counted : ∀ state, (network.pscw maxSteps).system.Reachable state → ∀ p,
    state.stage p = .compute →
      network.numIncoming p (state.window p) =
        network.arrivals (network.reference (state.step p)) p
  /-- No process waits for ever, even if calls return as late as they may. -/
  due : ∀ state, (network.pscw maxSteps).system.Reachable state →
    (∃ p, state.step p < maxSteps) → ∃ action next,
      (network.pscw maxSteps).Due state action ∧
      (network.pscw maxSteps).system.Step state action next
  /-- Every run can be taken on until all processes have taken all steps. -/
  finishes : ∀ state, (network.pscw maxSteps).system.Reachable state → ∃ trace finish,
    (network.pscw maxSteps).system.Steps state trace finish ∧
      ∀ p, finish.step p = maxSteps ∧ finish.stage p = .compute

variable {network maxSteps}

theorem matched_pscw : (network.pscw maxSteps).Matched :=
  matched_main (fun _ _ listed => mem_outranks.mpr listed)
    fun _ _ => mem_outranks.trans mem_inranks.symm

/-- What a process counts, if its window holds the spikes of the cells that have fired. -/
theorem numIncoming_eq {cells : Cells numprocs} {p : Fin numprocs} {inarray : ℕ → ℤ}
    (holds : ∀ place source, (network.inranks p)[place]? = some source →
      inarray place = if cells.fired source then 1 else 0) :
    network.numIncoming p inarray = network.arrivals cells p := by
  have places : (List.range (network.inranks p).length).map inarray =
      (network.inranks p).map fun source => if cells.fired source then 1 else 0 := by
    refine List.ext_getElem (by simp) fun place _ inside => ?_
    rw [List.getElem_map, List.getElem_range, List.getElem_map]
    exact holds place _ (List.getElem?_eq_getElem _)
  rw [numIncoming, places, arrivals_eq_countP_inranks]
  exact sum_eq_countP _ _ _ fun _ _ => rfl

theorem computeState_eq {cells : Cells numprocs} {p : Fin numprocs} {state : ℤ} {inarray : ℕ → ℤ}
    (same : state = cells.state p)
    (holds : ∀ place source, (network.inranks p)[place]? = some source →
      inarray place = if cells.fired source then 1 else 0) :
    (network.computeState p state inarray).1 = network.potential cells p := by
  rw [computeState, numIncoming_eq holds, same, potential]
  push_cast
  exact add_right_comm _ _ _

/-- The processes of a synchronous run, and their windows. -/
theorem sync_pscw (t : ℕ) :
    (∀ p, ((network.pscw maxSteps).sync t).priv p = (network.reference t).state p) ∧
      ∀ p place source, (network.inranks p)[place]? = some source →
        ((network.pscw maxSteps).sync t).window p place =
          if (network.reference t).fired source then 1 else 0 := by
  induction t with
  | zero => exact ⟨fun _ => rfl, fun _ _ _ _ => rfl⟩
  | succ t ih =>
      obtain ⟨states, places⟩ := ih
      have computed : ∀ p, (network.computeState p (((network.pscw maxSteps).sync t).priv p)
          (((network.pscw maxSteps).sync t).window p)).1 =
            network.potential (network.reference t) p :=
        fun p => computeState_eq (states p) (places p)
      refine ⟨fun p => ?_, fun p place source listed => ?_⟩
      · rw [← resetState_potential, ← computed]
        rfl
      · by_cases fired : (network.reference (t + 1)).fired source = true
        · rw [if_pos fired]
          refine window_of_fired matched_pscw listed ?_
          rw [computed, readyToFire_potential]
          exact fired
        · rw [if_neg fired]
          refine (window_of_quiet fun source' listed' => ?_).trans
            (if_pos (List.getElem?_eq_some_iff.mp listed).1)
          obtain rfl := Option.some.inj (listed.symm.trans listed')
          rw [computed, readyToFire_potential]
          exact Bool.eq_false_iff.mpr fired

/-- The state of a process that has computed. -/
theorem computed_pscw (t : ℕ) (p : Fin numprocs) :
    ((network.pscw maxSteps).computed ((network.pscw maxSteps).sync t) p).1 =
      network.potential (network.reference t) p :=
  computeState_eq ((sync_pscw t).1 p) ((sync_pscw t).2 p)

theorem privAt_pscw (t : ℕ) (p : Fin numprocs) (stage : ActiveTarget.Stage) :
    (network.pscw maxSteps).privAt t p stage = network.stateAt t p stage := by
  cases stage with
  | compute => exact (sync_pscw t).1 p
  | post => exact computed_pscw t p
  | start => exact computed_pscw t p
  | put => exact computed_pscw t p
  | complete => exact (sync_pscw (t + 1)).1 p
  | wait => exact (sync_pscw (t + 1)).1 p

variable (network maxSteps)

/-- The version with post, start, complete and wait is the synchronous network. -/
theorem pscw_synchronous : network.Synchronous maxSteps := by
  have agrees : ∀ {state}, (network.pscw maxSteps).system.Reachable state →
      (network.pscw maxSteps).Agrees state :=
    fun reachable => ActiveTarget.Program.agrees_of_reachable matched_pscw reachable
  have places : ∀ {state}, (network.pscw maxSteps).system.Reachable state → ∀ {p place source},
      state.stage p = .compute → (network.inranks p)[place]? = some source →
        state.window p place =
          if (network.reference (state.step p)).fired source then 1 else 0 := by
    intro state reachable p place source here listed
    rw [((agrees reachable).process p).window here]
    exact (sync_pscw _).2 p place source listed
  refine ⟨fun state reachable p => ?states, fun state reachable connection listed here => ?places,
    fun state reachable p here => ?counted, fun state reachable unfinished => ?due,
    fun state reachable => ?finishes⟩
  case states => exact ((agrees reachable).process p).priv.trans (privAt_pscw _ _ _)
  case places => exact places reachable here (getElem?_inranks.mpr ⟨listed, rfl⟩)
  case counted => exact numIncoming_eq fun place source listed => places reachable here listed
  case due => exact ActiveTarget.Program.due_of_unfinished matched_pscw reachable unfinished
  case finishes =>
    obtain ⟨trace, finish, run, done⟩ := ActiveTarget.Program.finishes matched_pscw reachable
    refine ⟨trace, finish, run, fun p => ?_⟩
    exact ActiveTarget.State.stage_of_clock (done p)

end Network

end HandsOn.Pneo
