import HandsOn.Pneo.Network

/-!
# The places that the processes compute

`init_state` takes the connections one after the other. A destination gives each of its
in-connections the next place of its window, and a source looks for the place of each of its
out-connections by a scan of its own, which stops at the first connection between the same
processes. Both agree where no connection is listed twice.
-/

namespace HandsOn.Pneo

variable {numprocs : ℕ}

/-- What `init_state` has stored: the sources of the in-connections, which number `j`, and the
out-connections, which number `k`. -/
structure Arrays (numprocs : ℕ) where
  inarray : List (Fin numprocs)
  outarray : List (Fin numprocs × ℕ)

namespace Arrays

variable (connarray : List (Connection numprocs)) (myrank : Fin numprocs)

/-- One connection of the loop of `init_state`. -/
def add (arrays : Arrays numprocs) (connection : Connection numprocs) : Arrays numprocs where
  inarray :=
    if connection.dest = myrank then arrays.inarray ++ [connection.source] else arrays.inarray
  outarray :=
    if connection.source = myrank then
      arrays.outarray ++ [(connection.dest, dispcnt myrank connection.dest connarray)]
    else arrays.outarray

/-- The arrays before the connection with index `i`. -/
def upTo (i : ℕ) : Arrays numprocs :=
  (connarray.take i).foldl (add connarray myrank) ⟨[], []⟩

/-- The arrays of a process. -/
def initState : Arrays numprocs :=
  connarray.foldl (add connarray myrank) ⟨[], []⟩

end Arrays

/-- `inarray_count` of a process. -/
def inarrayCount (connarray : List (Connection numprocs)) (dest : Fin numprocs) : ℕ :=
  (Arrays.initState connarray dest).inarray.length

/-- The place that the destination of connection `i` gives to it. -/
def placeOf (connarray : List (Connection numprocs)) (i : ℕ) : Option ℕ :=
  connarray[i]?.map fun connection => (Arrays.upTo connarray connection.dest i).inarray.length

/-- The displacement that the source of connection `i` stores for it. -/
def dispOf (connarray : List (Connection numprocs)) (i : ℕ) : Option ℕ := do
  let connection ← connarray[i]?
  let k := (Arrays.upTo connarray connection.source i).outarray.length
  let (_, disp) ← (Arrays.initState connarray connection.source).outarray[k]?
  return disp

/-- The displacements of the sources are the places of the destinations. -/
structure SlotsAgree (connarray : List (Connection numprocs)) : Prop where
  inside : ∀ i connection disp, connarray[i]? = some connection →
    dispOf connarray i = some disp → disp < inarrayCount connarray connection.dest
  given : ∀ i, dispOf connarray i = placeOf connarray i
  apart : ∀ i i' connection connection', connarray[i]? = some connection →
    connarray[i']? = some connection' → i ≠ i' → connection.dest = connection'.dest →
      dispOf connarray i ≠ dispOf connarray i'

/-! ### What the loop stores -/

section

variable {connarray : List (Connection numprocs)}

theorem Arrays.foldl_add (connarray : List (Connection numprocs)) (myrank : Fin numprocs)
    (connections : List (Connection numprocs)) (arrays : Arrays numprocs) :
    connections.foldl (add connarray myrank) arrays =
      ⟨arrays.inarray ++ (connections.filter fun connection => connection.dest = myrank).map
          Connection.source,
        arrays.outarray ++ (connections.filter fun connection => connection.source = myrank).map
          fun connection => (connection.dest, dispcnt myrank connection.dest connarray)⟩ := by
  induction connections generalizing arrays with
  | nil => simp
  | cons connection rest ih =>
      rw [List.foldl_cons, ih]
      by_cases toMe : connection.dest = myrank <;>
        by_cases fromMe : connection.source = myrank <;> simp [add, toMe, fromMe]

/-- The arrays of a network. -/
theorem initState_network (network : Network numprocs) (myrank : Fin numprocs) :
    Arrays.initState network.connarray myrank =
      ⟨network.inranks myrank, network.outarray myrank⟩ :=
  Arrays.foldl_add _ _ _ _

theorem placeOf_eq {i : ℕ} {connection : Connection numprocs}
    (listed : connarray[i]? = some connection) :
    placeOf connarray i =
      some ((connarray.take i).filter fun other => other.dest = connection.dest).length := by
  rw [placeOf, listed, Option.map_some, Arrays.upTo, Arrays.foldl_add]
  simp

/-- A filtered list holds an element after those before it. -/
theorem getElem?_filter_take {α : Type} {list : List α} {i : ℕ} {element : α} (keep : α → Bool)
    (listed : list[i]? = some element) (kept : keep element = true) :
    (list.filter keep)[((list.take i).filter keep).length]? = some element := by
  obtain ⟨inside, rfl⟩ := List.getElem?_eq_some_iff.mp listed
  have split : list.filter keep = (list.take i).filter keep ++
      list[i] :: (list.drop (i + 1)).filter keep := by
    conv_lhs => rw [← List.take_append_drop i list, List.drop_eq_getElem_cons inside]
    rw [List.filter_append, List.filter_cons_of_pos kept]
  rw [split, List.getElem?_append_right (Nat.le_refl _), Nat.sub_self, List.getElem?_cons_zero]

theorem dispOf_eq {i : ℕ} {connection : Connection numprocs}
    (listed : connarray[i]? = some connection) :
    dispOf connarray i = some (dispcnt connection.source connection.dest connarray) := by
  have stored := getElem?_filter_take (fun other => other.source = connection.source) listed
    (decide_eq_true rfl)
  simp only [dispOf, listed, Arrays.upTo, Arrays.initState, Arrays.foldl_add, List.nil_append,
    List.length_map, List.getElem?_map, stored, Option.map_some, Option.bind_eq_bind,
    Option.bind_some, Option.pure_def]

/-- A displacement lies in the window of the destination. -/
theorem dispOf_lt {i disp : ℕ} {connection : Connection numprocs}
    (listed : connarray[i]? = some connection) (stored : dispOf connarray i = some disp) :
    disp < inarrayCount connarray connection.dest := by
  rw [dispOf_eq listed, Network.dispcnt_eq_idxOf] at stored
  obtain rfl := Option.some.inj stored
  rw [inarrayCount, Arrays.initState, Arrays.foldl_add, List.nil_append, List.idxOf_lt_length_iff]
  refine List.mem_map_of_mem (List.mem_filter.mpr ⟨List.mem_of_getElem? listed, ?_⟩)
  exact decide_eq_true rfl

/-! ### Agreement -/

/-- A connection that is listed twice has one displacement. -/
theorem distinct_of_apart (agree : SlotsAgree connarray) : connarray.Nodup := by
  rw [List.nodup_iff_getElem?_ne_getElem?]
  intro i i' before inside same
  have listed' := List.getElem?_eq_getElem inside
  have listed := same.trans listed'
  refine agree.apart i i' _ _ listed listed' before.ne rfl ?_
  rw [dispOf_eq listed, dispOf_eq listed']

/-- The destination finds the source in the place that it has given to the connection. -/
theorem dispOf_eq_placeOf (distinct : connarray.Nodup) (i : ℕ) :
    dispOf connarray i = placeOf connarray i := by
  cases listed : connarray[i]? with
  | none => rw [dispOf, placeOf, listed]; rfl
  | some connection =>
      let network : Network numprocs := ⟨connarray, distinct⟩
      have given : (network.inranks connection.dest)[((connarray.take i).filter fun other =>
          other.dest = connection.dest).length]? = some connection.source := by
        rw [Network.inranks, List.getElem?_map,
          getElem?_filter_take _ listed (decide_eq_true rfl)]
        rfl
      rw [dispOf_eq listed, placeOf_eq listed, Option.some.injEq]
      exact (Network.getElem?_inranks.mp given).2

/-- A destination gives its places in the order of the list. -/
theorem placeOf_ne_of_lt {i i' : ℕ} {connection connection' : Connection numprocs}
    (listed : connarray[i]? = some connection) (listed' : connarray[i']? = some connection')
    (before : i < i') (same : connection.dest = connection'.dest) :
    placeOf connarray i ≠ placeOf connarray i' := by
  rw [placeOf_eq listed, placeOf_eq listed', same, Ne, Option.some.injEq]
  have next : ((connarray.take (i + 1)).filter fun other => other.dest = connection'.dest) =
      ((connarray.take i).filter fun other => other.dest = connection'.dest) ++ [connection] := by
    rw [List.take_add_one, listed, List.filter_append]
    simp [same]
  have grows := ((List.take_sublist_take_left (l := connarray) before).filter
    fun other => other.dest = connection'.dest).length_le
  rw [next, List.length_append, List.length_singleton] at grows
  exact Nat.ne_of_lt grows

theorem slotsAgree_of_distinct (distinct : connarray.Nodup) : SlotsAgree connarray where
  inside _ _ _ := dispOf_lt
  given := dispOf_eq_placeOf distinct
  apart i i' connection connection' listed listed' different same := by
    rw [dispOf_eq_placeOf distinct, dispOf_eq_placeOf distinct]
    rcases Nat.lt_or_gt_of_ne different with before | after
    · exact placeOf_ne_of_lt listed listed' before same
    · exact (placeOf_ne_of_lt listed' listed after same.symm).symm

/-- The places that the sources compute are those that the destinations have given, each of
them once, if and only if no connection is listed twice. -/
theorem slotsAgree_iff (connarray : List (Connection numprocs)) :
    SlotsAgree connarray ↔ connarray.Nodup :=
  ⟨distinct_of_apart, slotsAgree_of_distinct⟩

/-- Two connections from rank 0 to rank 1: both spikes go to place 0, and place 1 stays empty. -/
theorem not_slotsAgree_twice :
    let connarray : List (Connection 2) := [⟨0, 1⟩, ⟨0, 1⟩]
    inarrayCount connarray 1 = 2 ∧ dispOf connarray 0 = some 0 ∧ dispOf connarray 1 = some 0 ∧
      placeOf connarray 1 = some 1 ∧ ¬ SlotsAgree connarray := by
  refine ⟨rfl, rfl, rfl, rfl, fun agree => ?_⟩
  exact absurd (agree.given 1) (by decide)

end

end HandsOn.Pneo
