import HandsOn.Pneo.Pscw

/-!
# pNeo with fences

The window of a process is an array of structures, of which the displacements count the
integers: the spike of an in-connection arrives in the `source` or the `inspike` of the one
at half its place. `compute_state` sums the `inspike` fields and does not clear them.
-/

namespace HandsOn.Pneo

open HandsOn.Mpi HandsOn.Semantics

variable {numprocs : ℕ}

namespace Network

variable (network : Network numprocs) (maxSteps : ℕ)

/-- The integers of `inarray`: `source` and `inspike` of each in-connection in turn. -/
def inarrayFields (myrank : Fin numprocs) (i : ℕ) : ℤ :=
  if i % 2 = 0 then ((network.inranks myrank)[i / 2]?).elim 0 fun source => (source : ℕ) else 0

/-- `num_incoming` of the version with fences. -/
def numInspikes (myrank : Fin numprocs) (inarray : ℕ → ℤ) : ℤ :=
  ((List.range (network.inranks myrank).length).map fun i => inarray (2 * i + 1)).sum

/-- `compute_state` of the version with fences. -/
def computeStateFence (myrank : Fin numprocs) (state : ℤ) (inarray : ℕ → ℤ) : ℤ × (ℕ → ℤ) :=
  (state + network.numInspikes myrank inarray + 1, inarray)

/-- The processes of `pneo_fence.c`. The first `MPI_Win_fence` of a step opens the window to all
processes and an access epoch to all, and the second closes both. -/
def fence : ActiveTarget.Program numprocs ℤ ℕ ℤ :=
  network.main maxSteps (fun _ => List.finRange numprocs) (fun _ => List.finRange numprocs)
    network.inarrayFields network.computeStateFence

/-- The versions compute the same states and the same firing decisions, and with fences no
spike changes the source of an in-connection. -/
structure VersionsAgree : Prop where
  states : ∀ fenced, (network.fence maxSteps).system.Reachable fenced →
    ∀ state, (network.pscw maxSteps).system.Reachable state → ∀ p,
      fenced.step p = state.step p → fenced.stage p = state.stage p →
        fenced.priv p = state.priv p ∧
          readyToFire (fenced.priv p) = readyToFire (state.priv p)
  sources : ∀ fenced, (network.fence maxSteps).system.Reachable fenced →
    ∀ p (i : ℕ) source, (network.inranks p)[i]? = some source →
      fenced.window p (2 * i) = (source : ℕ)

/-- A cell has fired before a step. -/
def firedBefore (t : ℕ) (p : Fin numprocs) : Bool :=
  decide (∃ u < t, network.fires u p = true)

/-- The in-connections in odd places whose source has ever fired. -/
def oddArrivals (t : ℕ) (p : Fin numprocs) : ℕ :=
  (List.range (network.inranks p).length).countP fun i =>
    ((network.inranks p)[2 * i + 1]?).any (network.firedBefore t)

/-- No more and no fewer in-connections in odd places have ever carried a spike than
in-connections carry one in the step before, and a spike in an even place finds process 1 as
the source of the in-connection at half its place. -/
structure OddArrivals : Prop where
  spikes : ∀ t < maxSteps, ∀ p,
    network.oddArrivals t p = network.arrivals (network.reference t) p
  sources : ∀ t < maxSteps, ∀ connection ∈ network.connarray,
    network.fires t connection.source = true →
      dispcnt connection.source connection.dest network.connarray % 2 = 0 →
        ∀ source ∈ (network.inranks connection.dest)[
          dispcnt connection.source connection.dest network.connarray / 2]?, (source : ℕ) = 1

instance : Decidable (network.OddArrivals maxSteps) :=
  decidable_of_iff
    ((∀ t < maxSteps, ∀ p, network.oddArrivals t p = network.arrivals (network.reference t) p) ∧
      ∀ t < maxSteps, ∀ connection ∈ network.connarray,
        network.fires t connection.source = true →
          dispcnt connection.source connection.dest network.connarray % 2 = 0 →
            ∀ source ∈ (network.inranks connection.dest)[
              dispcnt connection.source connection.dest network.connarray / 2]?, (source : ℕ) = 1)
    ⟨fun holds => ⟨holds.1, holds.2⟩, fun holds => ⟨holds.spikes, holds.sources⟩⟩

variable {network maxSteps}

theorem matched_fence : (network.fence maxSteps).Matched :=
  matched_main (fun _ _ _ => List.mem_finRange _)
    fun _ _ => ⟨fun _ => List.mem_finRange _, fun _ => List.mem_finRange _⟩

variable (network maxSteps) in
/-- Up to a step, the version with fences computes the states of the reference. -/
def KeepsUp (t : ℕ) : Prop :=
  ∀ u < t, ∀ p, ((network.fence maxSteps).computed ((network.fence maxSteps).sync u) p).1 =
    network.potential (network.reference u) p

/-- A source has fired before the next step if it fires in this one or has before. -/
theorem firedBefore_succ (t : ℕ) (source : Fin numprocs) :
    network.firedBefore (t + 1) source =
      (network.fires t source || network.firedBefore t source) := by
  rw [Bool.eq_iff_iff]
  simp only [firedBefore, decide_eq_true_eq, Bool.or_eq_true]
  constructor
  · rintro ⟨u, earlier, fires⟩
    rcases Nat.lt_succ_iff_lt_or_eq.mp earlier with before | rfl
    · exact .inr ⟨u, before, fires⟩
    · exact .inl fires
  · rintro (fires | ⟨u, earlier, fires⟩)
    · exact ⟨t, Nat.lt_succ_self t, fires⟩
    · exact ⟨u, earlier.trans (Nat.lt_succ_self t), fires⟩

/-- A place keeps the first spike. -/
theorem KeepsUp.window {t : ℕ} (keeps : network.KeepsUp maxSteps t) (p : Fin numprocs)
    (place : ℕ) :
    ((network.fence maxSteps).sync t).window p place =
      if ((network.inranks p)[place]?).any (network.firedBefore t) then 1
      else network.inarrayFields p place := by
  induction t with
  | zero =>
      refine (if_neg fun fired => ?_).symm
      obtain ⟨source, _, before⟩ := (Option.any_eq_true _ _).mp fired
      simp [firedBefore] at before
  | succ t ih =>
      have before := ih fun u earlier => keeps u (earlier.trans (Nat.lt_succ_self t))
      have ready : ∀ source, readyToFire
          ((network.fence maxSteps).computed ((network.fence maxSteps).sync t) source).1 =
            network.fires t source := fun source => by
        rw [keeps t (Nat.lt_succ_self t), readyToFire_potential]
      cases listed : (network.inranks p)[place]? with
      | none =>
          refine (window_of_quiet fun source here => ?_).trans (before.trans ?_)
          · exact nomatch here.symm.trans listed
          · rw [listed]
            rfl
      | some source =>
          cases fires : network.fires t source with
          | true =>
              refine (window_of_fired matched_fence listed ((ready source).trans fires)).trans ?_
              rw [Option.any_some, firedBefore_succ, fires]
              rfl
          | false =>
              refine (window_of_quiet fun source' here => ?_).trans (before.trans ?_)
              · obtain rfl := Option.some.inj (listed.symm.trans here)
                exact (ready source).trans fires
              · rw [listed, Option.any_some, Option.any_some, firedBefore_succ, fires,
                  Bool.false_or]

/-- What a process counts. -/
theorem KeepsUp.numInspikes_eq {t : ℕ} (keeps : network.KeepsUp maxSteps t) (p : Fin numprocs) :
    network.numInspikes p (((network.fence maxSteps).sync t).window p) =
      network.oddArrivals t p := by
  refine sum_eq_countP _ _ _ fun i _ => ?_
  rw [keeps.window, inarrayFields, if_neg (by omega : ¬ (2 * i + 1) % 2 = 0)]

/-- The states before a step. -/
theorem KeepsUp.priv {t : ℕ} (keeps : network.KeepsUp maxSteps t) (p : Fin numprocs) :
    ((network.fence maxSteps).sync t).priv p = (network.reference t).state p := by
  cases t with
  | zero => rfl
  | succ t =>
      rw [← resetState_potential, ← keeps t (Nat.lt_succ_self t) p]
      rfl

/-- A process keeps up with a step if it counts what has arrived. -/
theorem KeepsUp.computed_iff {t : ℕ} (keeps : network.KeepsUp maxSteps t) (p : Fin numprocs) :
    ((network.fence maxSteps).computed ((network.fence maxSteps).sync t) p).1 =
        network.potential (network.reference t) p ↔
      network.oddArrivals t p = network.arrivals (network.reference t) p := by
  show ((network.fence maxSteps).sync t).priv p +
    network.numInspikes p (((network.fence maxSteps).sync t).window p) + 1 = _ ↔ _
  rw [keeps.priv, keeps.numInspikes_eq, potential]
  push_cast
  omega

theorem keepsUp_iff {n : ℕ} :
    network.KeepsUp maxSteps n ↔
      ∀ t < n, ∀ p, network.oddArrivals t p = network.arrivals (network.reference t) p := by
  constructor
  · intro keeps t before p
    have earlier : network.KeepsUp maxSteps t := fun u later => keeps u (later.trans before)
    exact (earlier.computed_iff p).mp (keeps t before p)
  · intro counts t
    induction t using Nat.strong_induction_on with
    | _ t ih =>
      intro before p
      have earlier : network.KeepsUp maxSteps t := fun u later => ih u later (later.trans before)
      exact (earlier.computed_iff p).mpr (counts t before p)

end Network

end HandsOn.Pneo
