import HandsOn.Pneo.Fence

/-!
# Where the versions of pNeo agree

The version with fences counts a spike only in an odd place, and counts it again in every later
step. From eight steps on this is never what the other version counts, unless there are no
connections at all.
-/

namespace HandsOn.Pneo

open HandsOn.Mpi HandsOn.Semantics

variable {numprocs : ℕ}

namespace Network

variable {network : Network numprocs} {maxSteps : ℕ}

/-- A process that keeps up has the state of the reference in the course of a step. -/
theorem KeepsUp.privAt {t : ℕ} {stage : ActiveTarget.Stage} {p : Fin numprocs}
    (keeps : network.KeepsUp maxSteps maxSteps) (within : 6 * t + stage.index ≤ 6 * maxSteps) :
    (network.fence maxSteps).privAt t p stage = network.stateAt t p stage := by
  have upTo : ∀ {u : ℕ}, u ≤ maxSteps → network.KeepsUp maxSteps u :=
    fun below u earlier => keeps u (earlier.trans_le below)
  cases stage <;> simp only [ActiveTarget.Stage.index] at within
  case compute => exact (upTo (by omega)).priv p
  case post => exact keeps t (by omega) p
  case start => exact keeps t (by omega) p
  case put => exact keeps t (by omega) p
  case complete => exact (upTo (show t + 1 ≤ maxSteps by omega)).priv p
  case wait => exact (upTo (show t + 1 ≤ maxSteps by omega)).priv p

/-- The sources that a process keeps in a synchronous run. -/
theorem OddArrivals.window (odd : network.OddArrivals maxSteps) {t i : ℕ} (within : t ≤ maxSteps)
    {p source : Fin numprocs} (listed : (network.inranks p)[i]? = some source) :
    ((network.fence maxSteps).sync t).window p (2 * i) = (source : ℕ) := by
  have keeps : network.KeepsUp maxSteps t :=
    keepsUp_iff.mpr fun u earlier => odd.spikes u (earlier.trans_le within)
  rw [keeps.window]
  split
  · rename_i fired
    obtain ⟨writer, here, before⟩ := (Option.any_eq_true _ _).mp fired
    obtain ⟨u, earlier, fires⟩ := of_decide_eq_true before
    obtain ⟨member, place⟩ := getElem?_inranks.mp here
    have one := odd.sources u (earlier.trans_le within) _ member fires (by rw [place]; omega) source
    rw [place, Nat.mul_div_cancel_left i two_pos] at one
    rw [one listed]
    rfl
  · rw [inarrayFields, if_pos (Nat.mul_mod_right 2 i), Nat.mul_div_cancel_left i two_pos, listed]
    rfl

/-- Where odd places carry the spikes that arrive, the versions agree. -/
theorem agree_of_oddArrivals (odd : network.OddArrivals maxSteps) :
    network.VersionsAgree maxSteps := by
  have keeps : network.KeepsUp maxSteps maxSteps := keepsUp_iff.mpr odd.spikes
  refine ⟨fun fenced reachable state reachable' p step stage => ?_,
    fun fenced reachable p i source listed => ?_⟩
  · have within := ActiveTarget.Program.clock_le_of_reachable reachable p
    have same : fenced.priv p = state.priv p := by
      rw [((ActiveTarget.Program.agrees_of_reachable matched_fence reachable).process p).priv,
        ((ActiveTarget.Program.agrees_of_reachable matched_pscw reachable').process p).priv,
        keeps.privAt within, privAt_pscw, step, stage]
    exact ⟨same, congrArg readyToFire same⟩
  · have within := ActiveTarget.Program.clock_le_of_reachable reachable p
    have agrees := (ActiveTarget.Program.agrees_of_reachable matched_fence reachable).process p
    change fenced.clock p ≤ 6 * maxSteps at within
    rw [ActiveTarget.State.clock] at within
    have kept := odd.window (by omega : fenced.step p ≤ maxSteps) listed
    by_cases here : fenced.stage p = .compute
    · rw [agrees.window here]
      exact kept
    · rcases agrees.slot here (2 * i) with ⟨q, index, sent, _, value⟩ | ⟨_, value⟩
      · have before : fenced.step p < maxSteps := by
          cases stage : fenced.stage p <;> rw [stage] at within here <;>
            simp only [ActiveTarget.Stage.index] at within <;> first | exact absurd rfl here | omega
        obtain ⟨ready, place⟩ := mem_outputSpikes.mp (List.mem_of_getElem? sent)
        have fires : network.fires (fenced.step p) q = true := by
          rw [← readyToFire_potential, ← keeps _ before q]
          exact ready
        obtain ⟨member, at_place⟩ := getElem?_inranks.mp place
        have one := odd.sources _ before _ member fires (by rw [at_place]; omega) source
        rw [at_place, Nat.mul_div_cancel_left i two_pos] at one
        rw [value, one listed]
        rfl
      · exact value.trans kept

/-- Where the versions agree, odd places carry the spikes that arrive. -/
theorem oddArrivals_of_agree (agree : network.VersionsAgree maxSteps) :
    network.OddArrivals maxSteps := by
  have matchedFence : (network.fence maxSteps).Matched := matched_fence
  have matchedPscw : (network.pscw maxSteps).Matched := matched_pscw
  have keeps : network.KeepsUp maxSteps maxSteps := by
    intro t before p
    have within : 6 * t + ActiveTarget.Stage.post.index ≤ 6 * maxSteps := by
      simp only [ActiveTarget.Stage.index]
      omega
    obtain ⟨fenced, reachable, step, stage⟩ := matchedFence.exists_stage p .post within
    obtain ⟨state, reachable', step', stage'⟩ := matchedPscw.exists_stage p .post within
    have same := (agree.states fenced reachable state reachable' p (step.trans step'.symm)
      (stage.trans stage'.symm)).1
    rw [((ActiveTarget.Program.agrees_of_reachable matched_fence reachable).process p).priv,
      ((ActiveTarget.Program.agrees_of_reachable matched_pscw reachable').process p).priv, step,
      stage, step', stage', privAt_pscw] at same
    exact same
  refine ⟨keepsUp_iff.mp keeps, fun t before connection listed fires even source member => ?_⟩
  have within : 6 * (t + 1) + ActiveTarget.Stage.compute.index ≤ 6 * maxSteps := by
    simp only [ActiveTarget.Stage.index]
    omega
  obtain ⟨fenced, reachable, step, stage⟩ :=
    matchedFence.exists_stage connection.dest .compute within
  have kept := agree.sources fenced reachable connection.dest _ source member
  have upTo : network.KeepsUp maxSteps (t + 1) := fun u earlier => keeps u (by omega)
  rw [((ActiveTarget.Program.agrees_of_reachable matched_fence reachable).process _).window stage,
    step, upTo.window, Nat.mul_div_cancel' (Nat.dvd_of_mod_eq_zero even),
    getElem?_inranks.mpr ⟨listed, rfl⟩, Option.any_some, if_pos] at kept
  · exact_mod_cast kept.symm
  · exact decide_eq_true ⟨t, Nat.lt_succ_self t, fires⟩

/-! ### Eight steps -/

theorem fires_iff {t : ℕ} {p : Fin numprocs} :
    network.fires t p = true ↔ 4 < network.potential (network.reference t) p :=
  decide_eq_true_iff

theorem state_succ_of_fires {t : ℕ} {p : Fin numprocs} (fires : network.fires t p = true) :
    (network.reference (t + 1)).state p = 0 :=
  if_pos (fires_iff.mp fires)

theorem state_succ_of_quiet {t : ℕ} {p : Fin numprocs} (quiet : ¬ network.fires t p = true) :
    (network.reference (t + 1)).state p = network.potential (network.reference t) p :=
  if_neg fun high => quiet (fires_iff.mpr high)

/-- The state of a cell that does not fire grows. -/
theorem le_state_of_quiet {t : ℕ} {p : Fin numprocs}
    (quiet : ∀ u < t, ¬ network.fires u p = true) : t ≤ (network.reference t).state p := by
  induction t with
  | zero => exact Nat.zero_le _
  | succ t ih =>
      have before := ih fun u earlier => quiet u (earlier.trans (Nat.lt_succ_self t))
      rw [state_succ_of_quiet (quiet t (Nat.lt_succ_self t)), potential]
      omega

/-- Every cell fires in one of the first five steps. -/
theorem exists_fires (p : Fin numprocs) : ∃ u < 5, network.fires u p = true := by
  by_contra never
  push Not at never
  have high := le_state_of_quiet (t := 5) never
  have low := fires_iff.not.mp (never 4 (by decide))
  rw [state_succ_of_quiet (never 4 (by decide))] at high
  exact low high

/-- A cell to which at most one spike comes in a step is quiet for two steps after it has
fired. -/
theorem quiet_of_fires {t n : ℕ} {p : Fin numprocs}
    (slow : ∀ u < n, network.arrivals (network.reference u) p ≤ 1)
    (fires : network.fires t p = true) (within : t + 2 < n) :
    ¬ network.fires (t + 1) p = true ∧ ¬ network.fires (t + 2) p = true := by
  have first := slow (t + 1) (by omega)
  have second := slow (t + 2) within
  have quiet : ¬ network.fires (t + 1) p = true := fun again => by
    have high := fires_iff.mp again
    rw [potential, state_succ_of_fires fires] at high
    omega
  refine ⟨quiet, fun again => ?_⟩
  have high := fires_iff.mp again
  rw [potential, state_succ_of_quiet quiet, potential, state_succ_of_fires fires] at high
  omega

namespace OddArrivals

variable (odd : network.OddArrivals maxSteps)
include odd

/-- A spike in an even place finds process 1. -/
theorem source_of_even (more : 5 ≤ maxSteps) {p writer source : Fin numprocs} {i : ℕ}
    (listed : (network.inranks p)[2 * i]? = some writer)
    (here : (network.inranks p)[i]? = some source) : (source : ℕ) = 1 := by
  obtain ⟨u, early, fires⟩ := @exists_fires _ network writer
  obtain ⟨member, place⟩ := getElem?_inranks.mp listed
  have one := odd.sources u (early.trans_le more) _ member fires (by rw [place]; omega) source
  rw [place, Nat.mul_div_cancel_left i two_pos] at one
  exact one here

/-- No cell has more than two in-connections. -/
theorem length_inranks_le (more : 5 ≤ maxSteps) (p : Fin numprocs) :
    (network.inranks p).length ≤ 2 := by
  by_contra long
  push Not at long
  have third := List.getElem?_eq_getElem long
  have second := List.getElem?_eq_getElem (show 1 < (network.inranks p).length by omega)
  have first := List.getElem?_eq_getElem (show 0 < (network.inranks p).length by omega)
  have same := Fin.ext ((odd.source_of_even (i := 0) more first first).trans
    (odd.source_of_even (i := 1) more third second).symm)
  have places := (nodup_inranks p).getElem_inj_iff.mp same
  exact absurd places (by decide)

/-- At most one spike comes to a cell in a step. -/
theorem slow (more : 5 ≤ maxSteps) (p : Fin numprocs) :
    ∀ t < maxSteps, network.arrivals (network.reference t) p ≤ 1 := by
  intro t before
  have short := odd.length_inranks_le more p
  rw [← odd.spikes t before p, oddArrivals]
  match size : (network.inranks p).length, short with
  | 0, _ => exact Nat.zero_le _
  | 1, _ => exact List.countP_le_length
  | 2, _ =>
      have missing : (network.inranks p)[3]? = none := List.getElem?_eq_none (by omega)
      simp only [List.range_succ, List.range_zero, List.nil_append, List.cons_append,
        List.countP_cons, List.countP_nil, missing, Option.any_none, Bool.false_eq_true, if_false,
        Nat.zero_add]
      split
      · exact Nat.le_refl 1
      · exact Nat.zero_le 1

/-- A cell with an in-connection counts the spikes wrong in one of the first eight steps. -/
theorem inranks_eq_nil (more : 8 ≤ maxSteps) (p : Fin numprocs) : network.inranks p = [] := by
  have short := odd.length_inranks_le (by omega) p
  match listed : network.inranks p, short with
  | [], _ => rfl
  | [a], _ =>
      obtain ⟨u, early, fires⟩ := @exists_fires _ network a
      have counted := odd.spikes (u + 1) (by omega) p
      rw [arrivals_eq_countP_inranks, oddArrivals, listed] at counted
      simp [show (network.reference (u + 1)).fired a = true from fires] at counted
  | [a, b], _ =>
      obtain ⟨u, early, fires⟩ := @exists_fires _ network b
      have slow := odd.slow (by omega)
      have either : ∀ w, u ≤ w → w + 1 < maxSteps →
          ¬ network.fires w b = true → network.fires w a = true := by
        intro w later within quiet
        have counted := odd.spikes (w + 1) within p
        have before : network.firedBefore (w + 1) b = true :=
          decide_eq_true ⟨u, Nat.lt_succ_of_le later, fires⟩
        rw [arrivals_eq_countP_inranks, oddArrivals, listed] at counted
        by_contra quiet'
        simp [List.range_succ, before,
          show ¬ (network.reference (w + 1)).fired a = true from quiet',
          show ¬ (network.reference (w + 1)).fired b = true from quiet] at counted
      obtain ⟨quiet, quiet'⟩ := quiet_of_fires (slow b) fires (by omega)
      have relay := either (u + 1) (by omega) (by omega) quiet
      have again := either (u + 2) (by omega) (by omega) quiet'
      exact absurd again (quiet_of_fires (slow a) relay (by omega)).1

end OddArrivals

/-- Odd places carry the spikes that arrive for eight steps only if there are no connections. -/
theorem OddArrivals.connarray_eq_nil (odd : network.OddArrivals maxSteps) (more : 8 ≤ maxSteps) :
    network.connarray = [] := by
  refine List.eq_nil_iff_forall_not_mem.mpr fun connection listed => ?_
  have member := mem_inranks.mpr listed
  rw [odd.inranks_eq_nil more] at member
  exact absurd member List.not_mem_nil

theorem oddArrivals_of_no_connections (none : network.connarray = []) :
    network.OddArrivals maxSteps := by
  refine ⟨fun t _ p => ?_, fun t _ connection listed => ?_⟩
  · rw [arrivals_eq_countP_inranks, oddArrivals, inranks, none]
    rfl
  · rw [none] at listed
    exact absurd listed List.not_mem_nil

variable (network maxSteps)

/-- The versions agree if there are no connections, or in fewer than eight steps in which odd
places carry the spikes that arrive; and not otherwise. -/
theorem versionsAgree_iff :
    network.VersionsAgree maxSteps ↔
      network.connarray = [] ∨ maxSteps < 8 ∧ network.OddArrivals maxSteps := by
  constructor
  · intro agree
    have odd := oddArrivals_of_agree agree
    rcases Nat.lt_or_ge maxSteps 8 with few | more
    · exact .inr ⟨few, odd⟩
    · exact .inl (odd.connarray_eq_nil more)
  · rintro (none | ⟨_, odd⟩)
    · exact agree_of_oddArrivals (oddArrivals_of_no_connections none)
    · exact agree_of_oddArrivals odd

/-- Two steps in which the only spike takes an odd place. -/
example : (⟨[⟨0, 2⟩, ⟨4, 2⟩], by decide⟩ : Network 5).OddArrivals 2 := by decide

/-- The connections of the sample file. -/
def pneofile : Network 7 where
  connarray := [⟨1, 2⟩, ⟨0, 3⟩, ⟨3, 4⟩, ⟨5, 6⟩]
  distinct := by decide

/-- Two steps of the sample file are enough to tell the versions apart. -/
theorem pneofile_versions_differ : ¬ pneofile.VersionsAgree 2 := by
  intro agree
  have counted := (oddArrivals_of_agree agree).spikes 1 (by decide) 2
  revert counted
  decide

end Network

end HandsOn.Pneo
