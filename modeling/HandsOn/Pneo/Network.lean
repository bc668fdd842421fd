import Mathlib.Algebra.Order.Ring.Int
import Mathlib.Data.List.Nodup
import HandsOn.Mpi.ActiveTargetProgress

/-!
# The network of pNeo

Every process reads the same file of connections and keeps its own part of it: the sources of
its in-connections, and for each out-connection the rank of the destination and the place that
the destination gives to the connection. `reference` is the network as a synchronous system of
cells.
-/

namespace HandsOn.Pneo

open HandsOn.Mpi

/-- A line of the connection file. -/
structure Connection (numprocs : ℕ) where
  source : Fin numprocs
  dest : Fin numprocs
deriving DecidableEq

/-- The connections of a file in which none is listed twice. -/
structure Network (numprocs : ℕ) where
  connarray : List (Connection numprocs)
  distinct : connarray.Nodup

variable {numprocs : ℕ}

/-- The connections to `dest` that are listed before the one from `myrank`. -/
def dispcnt (myrank dest : Fin numprocs) : List (Connection numprocs) → ℕ
  | [] => 0
  | connection :: rest =>
      if connection.dest = dest then
        if connection.source = myrank then 0 else dispcnt myrank dest rest + 1
      else dispcnt myrank dest rest

/-- `ready_to_fire`. -/
def readyToFire (state : ℤ) : Bool :=
  decide (4 < state)

/-- `reset_state`, for a cell that is ready to fire. -/
def resetState (state : ℤ) : ℤ :=
  if readyToFire state then 0 else state

/-- `state` after `init_state`. -/
def initState (myrank : Fin numprocs) : ℤ :=
  ((myrank + 5) % numprocs : ℕ)

/-- The constant that `output_spikes` puts. -/
def spike : ℤ := 1

namespace Network

variable (network : Network numprocs)

/-- `inranks`, which has `inarray_count` entries. -/
def inranks (myrank : Fin numprocs) : List (Fin numprocs) :=
  (network.connarray.filter fun connection => connection.dest = myrank).map Connection.source

/-- `outarray`: the destination of each out-connection and the displacement there. -/
def outarray (myrank : Fin numprocs) : List (Fin numprocs × ℕ) :=
  (network.connarray.filter fun connection => connection.source = myrank).map fun connection =>
    (connection.dest, dispcnt myrank connection.dest network.connarray)

/-- `outranks`. -/
def outranks (myrank : Fin numprocs) : List (Fin numprocs) :=
  (network.connarray.filter fun connection => connection.source = myrank).map Connection.dest

/-- The puts of `output_spikes`, for a cell that is ready to fire. -/
def outputSpikes (myrank : Fin numprocs) (state : ℤ) : List (Fin numprocs × ℕ) :=
  if readyToFire state then network.outarray myrank else []

/-! ### Places -/

variable {network} {source dest : Fin numprocs}

theorem mem_inranks : source ∈ network.inranks dest ↔ ⟨source, dest⟩ ∈ network.connarray := by
  simp only [inranks, List.mem_map, List.mem_filter, decide_eq_true_eq]
  constructor
  · rintro ⟨connection, ⟨listed, rfl⟩, rfl⟩
    exact listed
  · intro listed
    exact ⟨_, ⟨listed, rfl⟩, rfl⟩

theorem mem_outranks : dest ∈ network.outranks source ↔ ⟨source, dest⟩ ∈ network.connarray := by
  simp only [outranks, List.mem_map, List.mem_filter, decide_eq_true_eq]
  constructor
  · rintro ⟨connection, ⟨listed, rfl⟩, rfl⟩
    exact listed
  · intro listed
    exact ⟨_, ⟨listed, rfl⟩, rfl⟩

theorem nodup_inranks (dest : Fin numprocs) : (network.inranks dest).Nodup := by
  refine (network.distinct.filter _).map_on ?_
  rintro ⟨source, _⟩ inside ⟨source', _⟩ inside' same
  obtain rfl := of_decide_eq_true (List.mem_filter.mp inside).2
  obtain rfl := of_decide_eq_true (List.mem_filter.mp inside').2
  exact congrArg₂ Connection.mk same rfl

theorem nodup_outranks (source : Fin numprocs) : (network.outranks source).Nodup := by
  refine (network.distinct.filter _).map_on ?_
  rintro ⟨_, dest⟩ inside ⟨_, dest'⟩ inside' same
  obtain rfl := of_decide_eq_true (List.mem_filter.mp inside).2
  obtain rfl := of_decide_eq_true (List.mem_filter.mp inside').2
  exact congrArg₂ Connection.mk rfl same

theorem nodup_outarray (source : Fin numprocs) : (network.outarray source).Nodup := by
  refine List.Nodup.of_map Prod.fst ?_
  rw [outarray, List.map_map]
  exact nodup_outranks source

/-- The place that a source computes is the one that its destination has given it. -/
theorem dispcnt_eq_idxOf (connections : List (Connection numprocs)) :
    dispcnt source dest connections =
      ((connections.filter fun connection => connection.dest = dest).map
        Connection.source).idxOf source := by
  induction connections with
  | nil => rfl
  | cons connection rest ih =>
      by_cases here : connection.dest = dest
      · rw [List.filter_cons_of_pos (by simpa using here), List.map_cons, dispcnt, if_pos here]
        by_cases own : connection.source = source
        · rw [if_pos own, own, List.idxOf_cons_self]
        · rw [if_neg own, List.idxOf_cons_ne _ own, ih]
      · rw [List.filter_cons_of_neg (by simpa using here), dispcnt, if_neg here, ih]

theorem getElem?_inranks {place : ℕ} :
    (network.inranks dest)[place]? = some source ↔
      ⟨source, dest⟩ ∈ network.connarray ∧ dispcnt source dest network.connarray = place := by
  rw [dispcnt_eq_idxOf, ← mem_inranks]
  constructor
  · intro listed
    obtain ⟨inside, rfl⟩ := List.getElem?_eq_some_iff.mp listed
    exact ⟨List.getElem_mem inside, (nodup_inranks dest).idxOf_getElem place inside⟩
  · rintro ⟨member, rfl⟩
    exact List.getElem?_idxOf member

/-- The out-connections of a process are places of their destinations. -/
theorem mem_outarray {place : ℕ} :
    (dest, place) ∈ network.outarray source ↔ (network.inranks dest)[place]? = some source := by
  simp only [outarray, List.mem_map, List.mem_filter, decide_eq_true_eq, getElem?_inranks]
  constructor
  · rintro ⟨connection, ⟨listed, rfl⟩, same⟩
    obtain ⟨rfl, rfl⟩ := Prod.mk.inj same
    exact ⟨listed, rfl⟩
  · rintro ⟨listed, rfl⟩
    exact ⟨_, ⟨listed, rfl⟩, rfl⟩

theorem mem_outputSpikes {state : ℤ} {place : ℕ} :
    (dest, place) ∈ network.outputSpikes source state ↔
      readyToFire state = true ∧ (network.inranks dest)[place]? = some source := by
  rw [outputSpikes]
  split
  · rename_i ready
    rw [mem_outarray, ready]
    simp
  · rename_i ready
    simp [ready]

/-- No place is given twice. -/
theorem outputSpikes_distinct {source' : Fin numprocs} {state state' : ℤ} {i i' : ℕ}
    {entry : Fin numprocs × ℕ} (listed : (network.outputSpikes source state)[i]? = some entry)
    (listed' : (network.outputSpikes source' state')[i']? = some entry) :
    source = source' ∧ i = i' := by
  obtain ⟨ready, place⟩ := mem_outputSpikes.mp (List.mem_of_getElem? listed)
  obtain ⟨ready', place'⟩ := mem_outputSpikes.mp (List.mem_of_getElem? listed')
  obtain rfl : source = source' := Option.some.inj (place.symm.trans place')
  rw [outputSpikes, if_pos ready] at listed
  rw [outputSpikes, if_pos ready'] at listed'
  obtain ⟨inside, here⟩ := List.getElem?_eq_some_iff.mp listed
  obtain ⟨inside', here'⟩ := List.getElem?_eq_some_iff.mp listed'
  exact ⟨rfl, (nodup_outarray source).getElem_inj_iff.mp (here.trans here'.symm)⟩

end Network

/-! ### The reference -/

/-- The cells after a step: their states, and which of them have fired in it. -/
structure Cells (numprocs : ℕ) where
  state : Fin numprocs → ℕ
  fired : Fin numprocs → Bool

namespace Network

variable (network : Network numprocs)

/-- The in-connections whose source has fired. -/
def arrivals (cells : Cells numprocs) (p : Fin numprocs) : ℕ :=
  network.connarray.countP fun connection =>
    decide (connection.dest = p) && cells.fired connection.source

/-- The state of a cell before it fires. -/
def potential (cells : Cells numprocs) (p : Fin numprocs) : ℕ :=
  cells.state p + 1 + network.arrivals cells p

/-- All cells take a step. -/
def next (cells : Cells numprocs) : Cells numprocs where
  state p := if 4 < network.potential cells p then 0 else network.potential cells p
  fired p := decide (4 < network.potential cells p)

/-- The cells after each number of steps. -/
def reference : ℕ → Cells numprocs
  | 0 => ⟨fun p => (p + 5) % numprocs, fun _ => false⟩
  | t + 1 => network.next (reference t)

/-- A cell fires in a step. -/
def fires (t : ℕ) (p : Fin numprocs) : Bool :=
  (network.reference (t + 1)).fired p

variable {network}

theorem arrivals_eq_countP_inranks (cells : Cells numprocs) (p : Fin numprocs) :
    network.arrivals cells p = (network.inranks p).countP cells.fired := by
  rw [arrivals, inranks, List.countP_map, List.countP_filter]
  refine List.countP_congr fun connection _ => ?_
  simp only [Function.comp_apply, Bool.and_eq_true, decide_eq_true_eq]
  exact and_comm

theorem readyToFire_potential (t : ℕ) (p : Fin numprocs) :
    readyToFire (network.potential (network.reference t) p) = network.fires t p := by
  simp only [readyToFire, fires, reference, next, decide_eq_decide]
  omega

theorem resetState_potential (t : ℕ) (p : Fin numprocs) :
    resetState (network.potential (network.reference t) p) =
      ((network.reference (t + 1)).state p : ℤ) := by
  rw [resetState, readyToFire_potential]
  simp only [fires, reference, next, decide_eq_true_eq]
  split <;> rfl

end Network

/-! ### The processes -/

/-- The loop of `main`, which the versions share but for the groups that they open their
windows to, the windows, and `compute_state`. -/
def Network.main (network : Network numprocs) (maxSteps : ℕ)
    (outgroup ingroup : Fin numprocs → List (Fin numprocs)) (inarray : Fin numprocs → ℕ → ℤ)
    (computeState : Fin numprocs → ℤ → (ℕ → ℤ) → ℤ × (ℕ → ℤ)) :
    ActiveTarget.Program numprocs ℤ ℕ ℤ where
  steps := maxSteps
  accessGroup := outgroup
  exposureGroup := ingroup
  start := initState
  window := inarray
  compute := computeState
  puts := network.outputSpikes
  origin _ := spike
  settle _ := resetState

section Main

variable {network : Network numprocs} {maxSteps : ℕ}
  {outgroup ingroup : Fin numprocs → List (Fin numprocs)} {inarray : Fin numprocs → ℕ → ℤ}
  {computeState : Fin numprocs → ℤ → (ℕ → ℤ) → ℤ × (ℕ → ℤ)}

/-- The spikes of a step meet in no place. -/
theorem Network.matched_main
    (access : ∀ source dest, ⟨source, dest⟩ ∈ network.connarray → dest ∈ outgroup source)
    (groups : ∀ source dest, dest ∈ outgroup source ↔ source ∈ ingroup dest) :
    (network.main maxSteps outgroup ingroup inarray computeState).Matched where
  access source _ dest _ put :=
    access source dest (mem_inranks.mp (List.mem_of_getElem? (mem_outputSpikes.mp put).2))
  groups := groups
  origin _ _ := rfl
  distinct _ _ _ _ _ _ _ listed listed' := outputSpikes_distinct listed listed'

variable {snapshot : ActiveTarget.Snapshot numprocs ℤ ℕ ℤ} {source dest : Fin numprocs} {place : ℕ}

/-- A spike arrives in the place of its connection. -/
theorem Network.window_of_fired
    (matched : (network.main maxSteps outgroup ingroup inarray computeState).Matched)
    (listed : (network.inranks dest)[place]? = some source)
    (ready : readyToFire (computeState source (snapshot.priv source) (snapshot.window source)).1 =
      true) :
    ((network.main maxSteps outgroup ingroup inarray computeState).after snapshot).window dest place
      = spike :=
  ActiveTarget.Program.landed_of_sends matched (mem_outputSpikes.mpr ⟨ready, listed⟩)

/-- A place without a spike stays as it has been computed. -/
theorem Network.window_of_quiet
    (quiet : ∀ source, (network.inranks dest)[place]? = some source →
      readyToFire (computeState source (snapshot.priv source) (snapshot.window source)).1 = false) :
    ((network.main maxSteps outgroup ingroup inarray computeState).after snapshot).window dest place
      = (computeState dest (snapshot.priv dest) (snapshot.window dest)).2 place := by
  refine ActiveTarget.Program.landed_of_not_sends fun source put => ?_
  obtain ⟨ready, listed⟩ := mem_outputSpikes.mp put
  exact Bool.noConfusion (ready.symm.trans (quiet source listed))

end Main

/-- A sum of zeros and ones counts the ones. -/
theorem sum_eq_countP {α : Type*} (ones : α → Bool) (values : α → ℤ) (list : List α)
    (binary : ∀ entry ∈ list, values entry = if ones entry then 1 else 0) :
    (list.map values).sum = list.countP ones := by
  induction list with
  | nil => rfl
  | cons entry rest ih =>
      rw [List.map_cons, List.sum_cons, binary entry List.mem_cons_self, List.countP_cons,
        ih fun other member => binary other (List.mem_cons_of_mem _ member)]
      split <;> push_cast <;> omega

end HandsOn.Pneo
