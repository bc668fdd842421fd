import HandsOn.Life.Sweep
import Mathlib.Data.List.Flatten

/-!
# The sweeps of a team in order

Assignments between two barriers commute, so that every run passes them with the memory of the
loops taken in the order of the source.
-/

namespace HandsOn.Life

open OpenMP

/-! ### Assignments -/

section

variable {cols : ℕ} {pointers : Pointers}

/-- An assignment to the other allocation changes no new state. -/
theorem nextstate_update_temp (different : pointers.temp ≠ pointers.matrix) (offset : ℕ)
    (value : Int) (mem : Mem) :
    nextstate (view cols pointers.matrix (Function.update mem (pointers.temp, offset) value)) =
      nextstate (view cols pointers.matrix mem) := by
  have same : view cols pointers.matrix (Function.update mem (pointers.temp, offset) value) =
      view cols pointers.matrix mem := by
    ext row col
    exact Function.update_of_ne (fun equal => different (congrArg Prod.fst equal).symm) _ _
  rw [same]

/-- An assignment to a row apart changes no new state. -/
theorem nextstate_update_row {row col source col' : ℕ} (apart : row + 1 < source ∨ source + 1 < row)
    (within : col < cols + 2) (within' : col' ≤ cols) (value : Int) (mem : Mem) :
    nextstate (view cols pointers.matrix
        (Function.update mem (entry cols pointers.matrix row col) value)) source col' =
      nextstate (view cols pointers.matrix mem) source col' := by
  refine nextstate_congr fun i j above below left right => ?_
  refine Function.update_of_ne (entry_ne _ _ (by omega) within (.inl ?_)) _ _
  omega

/-- The column of an assignment is one of the matrix, or of its interior. -/
def Access.Within (cols : ℕ) : Access → Prop
  | deliver _ col _ => col < cols + 2
  | assign _ _ col => 1 ≤ col ∧ col ≤ cols

/-- Neither assignment reads what the other writes, and both write the same if they write in the
same place. -/
def Access.Apart : Access → Access → Prop
  | deliver row col value, deliver row' col' value' => row = row' → col = col' → value = value'
  | deliver row _ _, assign _ source _ => row + 1 < source ∨ source + 1 < row
  | assign _ source _, deliver row _ _ => row + 1 < source ∨ source + 1 < row
  | assign row source col, assign row' source' col' => row = row' → col = col' → source = source'

/-- Writes in different places commute, and so do equal ones. -/
theorem update_comm_of_eq {address address' : Addr} {value value' : Int}
    (same : address = address' → value = value') (mem : Mem) :
    Function.update (Function.update mem address' value') address value =
      Function.update (Function.update mem address value) address' value' := by
  by_cases equal : address = address'
  · rw [equal, same equal]
  · exact Function.update_comm (Ne.symm equal) _ _ _

theorem Access.apply_comm (different : pointers.temp ≠ pointers.matrix) {first second : Access}
    (within : first.Within cols) (within' : second.Within cols) (apart : first.Apart second)
    (mem : Mem) :
    first.apply cols pointers (second.apply cols pointers mem) =
      second.apply cols pointers (first.apply cols pointers mem) := by
  cases first with
  | deliver row col value =>
      cases second with
      | deliver row' col' value' =>
          refine update_comm_of_eq (fun same => ?_) mem
          obtain ⟨_, sameRow, sameCol⟩ := (entry_inj within within').mp same
          exact apart sameRow sameCol
      | assign row' source col' =>
          rw [apply, apply, apply, apply, nextstate_update_row apart within within'.2]
          exact Function.update_comm (fun same => different (congrArg Prod.fst same)) _ _ _
  | assign row source col =>
      cases second with
      | deliver row' col' value' =>
          rw [apply, apply, apply, apply, nextstate_update_row apart within' within.2]
          exact Function.update_comm (fun same => different (congrArg Prod.fst same).symm) _ _ _
      | assign row' source' col' =>
          rw [apply, apply, apply, apply, entry, entry, nextstate_update_temp different,
            nextstate_update_temp different]
          refine update_comm_of_eq (fun same => ?_) mem
          obtain ⟨_, sameRow, sameCol⟩ :=
            (entry_inj (by have := within.2; omega) (by have := within'.2; omega)).mp same
          rw [apart sameRow sameCol, sameCol]

/-- Assignments that can be executed in any order. -/
structure Orderless (cols : ℕ) (accesses : List Access) : Prop where
  within : ∀ access ∈ accesses, access.Within cols
  apart : ∀ access ∈ accesses, ∀ access' ∈ accesses, access.Apart access'

/-- Execute assignments one after the other. -/
def applyAll (cols : ℕ) (pointers : Pointers) (accesses : List Access) (mem : Mem) : Mem :=
  accesses.foldl (fun mem access => access.apply cols pointers mem) mem

theorem Orderless.applyAll_perm (different : pointers.temp ≠ pointers.matrix)
    {accesses accesses' : List Access} (orderless : Orderless cols accesses)
    (perm : accesses.Perm accesses') (mem : Mem) :
    applyAll cols pointers accesses mem = applyAll cols pointers accesses' mem := by
  refine perm.foldl_eq' (fun first listed second listed' mem => ?_) mem
  exact Access.apply_comm different (orderless.within second listed')
    (orderless.within first listed) (orderless.apart second listed' first listed) mem

/-- Assignments write where they say. -/
theorem applyAll_frame {accesses : List Access} {address : Addr}
    (assigns : ∀ access ∈ accesses, ∃ row source col, access = .assign row source col ∧
      address ≠ entry cols pointers.temp row col) (mem : Mem) :
    applyAll cols pointers accesses mem address = mem address := by
  induction accesses generalizing mem with
  | nil => rfl
  | cons access rest ih =>
      obtain ⟨row, source, col, rfl, other⟩ := assigns access List.mem_cons_self
      refine (ih (fun access listed => assigns access (List.mem_cons_of_mem _ listed)) _).trans ?_
      exact Function.update_of_ne other _ _

/-- An entry that is assigned holds the new state of its source, if all assignments to it have
that source. -/
theorem applyAll_cell (different : pointers.temp ≠ pointers.matrix) {accesses : List Access}
    {row source col : ℕ} (within : col ≤ cols)
    (assigns : ∀ access ∈ accesses, ∃ row' source' col', access = .assign row' source' col' ∧
      col' ≤ cols ∧ (row' = row → col' = col → source' = source))
    (listed : .assign row source col ∈ accesses) (mem : Mem) :
    applyAll cols pointers accesses mem (entry cols pointers.temp row col) =
      nextstate (view cols pointers.matrix mem) source col := by
  induction accesses generalizing mem with
  | nil => cases listed
  | cons access rest ih =>
      have others := fun access listed => assigns access (List.mem_cons_of_mem _ listed)
      obtain ⟨row', source', col', rfl, within', same⟩ := assigns access List.mem_cons_self
      by_cases later : .assign row source col ∈ rest
      · refine (ih others later
          ((Access.assign row' source' col').apply cols pointers mem)).trans ?_
        exact congrFun (congrFun (nextstate_update_temp different _ _ mem) source) col
      · obtain ⟨rfl, rfl, rfl⟩ : row = row' ∧ source = source' ∧ col = col' := by
          rcases List.mem_cons.mp listed with own | here
          · exact Access.assign.inj own
          · exact absurd here later
        have kept : applyAll cols pointers rest
            ((Access.assign row source col).apply cols pointers mem)
              (entry cols pointers.temp row col) =
            (Access.assign row source col).apply cols pointers mem
              (entry cols pointers.temp row col) := by
          refine applyAll_frame (fun access further => ?_) _
          obtain ⟨row', source', col', rfl, within', same⟩ := others access further
          refine ⟨row', source', col', rfl, entry_ne _ _ (by omega) (by omega) ?_⟩
          by_contra equal
          obtain ⟨rfl, rfl⟩ : row = row' ∧ col = col' := by omega
          exact later (same rfl rfl ▸ further)
        exact kept.trans (Function.update_self _ _ _)

end

/-! ### The loops in order -/

section

variable {threads myrows cols : ℕ} (schedule : Schedule threads myrows cols)
  (halos : ℕ → Halo myrows cols)

/-- The assignments of a loop over rows, in order. -/
def sweepAccesses (cols first count : ℕ) : List Access :=
  (List.range' first count).flatMap (rowAccesses cols)

/-- The assignments of `firstAccesses`, in the order of the source. -/
def firstInOrder (k : ℕ) : Version → List Access
  | .sweepomp1 => (halos k).accesses
  | .sweepomp2 => (halos k).accesses
  | .sweepomp3 => (halos k).accesses ++ sweepAccesses cols 2 (myrows - 2)

/-- The assignments of `secondAccesses`, in the order of the source. -/
def secondInOrder (myrows cols : ℕ) : Version → List Access
  | .sweepomp1 => sweepAccesses cols 1 myrows
  | .sweepomp2 => sweepAccesses cols 1 myrows
  | .sweepomp3 => (List.range' 1 cols).flatMap (edgeAccesses myrows)

theorem mem_sweepAccesses {first count : ℕ} {access : Access} :
    access ∈ sweepAccesses cols first count ↔
      ∃ row col, access = .assign row row col ∧ (first ≤ row ∧ row < first + count) ∧
        1 ≤ col ∧ col ≤ cols := by
  simp only [sweepAccesses, rowAccesses, List.mem_flatMap, List.mem_map, List.mem_range'_1]
  constructor
  · rintro ⟨row, inRows, col, inCols, rfl⟩
    exact ⟨row, col, rfl, inRows, by omega⟩
  · rintro ⟨row, col, rfl, inRows, inCols⟩
    exact ⟨row, inRows, col, by omega, rfl⟩

theorem mem_edgeAccesses {access : Access} :
    access ∈ (List.range' 1 cols).flatMap (edgeAccesses myrows) ↔
      ∃ row col, access = .assign row 1 col ∧ (row = 1 ∨ row = myrows) ∧
        1 ≤ col ∧ col ≤ cols := by
  simp only [edgeAccesses, List.mem_flatMap, List.mem_cons, List.not_mem_nil, or_false,
    List.mem_range'_1]
  constructor
  · rintro ⟨col, inCols, rfl | rfl⟩
    · exact ⟨1, col, rfl, .inl rfl, by omega⟩
    · exact ⟨myrows, col, rfl, .inr rfl, by omega⟩
  · rintro ⟨row, col, rfl, rfl | rfl, inCols⟩
    · exact ⟨col, by omega, .inl rfl⟩
    · exact ⟨col, by omega, .inr rfl⟩

theorem mem_accesses {halo : Halo myrows cols} {access : Access} :
    access ∈ halo.accesses ↔
      ∃ target ∈ halo.targets, .deliver target.1 target.2 (halo.value target.1 target.2) = access :=
  List.mem_map

theorem orderless_sweep (first count : ℕ) : Orderless cols (sweepAccesses cols first count) where
  within access listed := by
    obtain ⟨row, col, rfl, _, inCols⟩ := mem_sweepAccesses.mp listed
    exact inCols
  apart access listed access' listed' := by
    obtain ⟨row, col, rfl, _⟩ := mem_sweepAccesses.mp listed
    obtain ⟨row', col', rfl, _⟩ := mem_sweepAccesses.mp listed'
    exact fun same _ => same

theorem orderless_halo (halo : Halo myrows cols) : Orderless cols halo.accesses where
  within access listed := by
    obtain ⟨target, inside, rfl⟩ := mem_accesses.mp listed
    exact (halo.outside target inside).2
  apart access listed access' listed' := by
    obtain ⟨target, _, rfl⟩ := mem_accesses.mp listed
    obtain ⟨target', _, rfl⟩ := mem_accesses.mp listed'
    intro sameRow sameCol
    rw [sameRow, sameCol]

theorem orderless_edges : Orderless cols ((List.range' 1 cols).flatMap (edgeAccesses myrows)) where
  within access listed := by
    obtain ⟨row, col, rfl, _, inCols⟩ := mem_edgeAccesses.mp listed
    exact inCols
  apart access listed access' listed' := by
    obtain ⟨row, col, rfl, _⟩ := mem_edgeAccesses.mp listed
    obtain ⟨row', col', rfl, _⟩ := mem_edgeAccesses.mp listed'
    exact fun _ _ => rfl

/-- The inner rows do not depend on the halo. -/
theorem orderless_overlap (halo : Halo myrows cols) :
    Orderless cols (halo.accesses ++ sweepAccesses cols 2 (myrows - 2)) where
  within access listed := by
    rcases List.mem_append.mp listed with early | late
    · exact (orderless_halo halo).within access early
    · exact (orderless_sweep _ _).within access late
  apart access listed access' listed' := by
    have across : ∀ first ∈ halo.accesses, ∀ second ∈ sweepAccesses cols 2 (myrows - 2),
        first.Apart second ∧ second.Apart first := by
      intro first inHalo second inSweep
      obtain ⟨target, inside, rfl⟩ := mem_accesses.mp inHalo
      obtain ⟨row, col, rfl, inRows, _⟩ := mem_sweepAccesses.mp inSweep
      have halo_row := (halo.outside target inside).1
      constructor <;> simp only [Access.Apart] <;> omega
    rcases List.mem_append.mp listed with early | late
    · rcases List.mem_append.mp listed' with early' | late'
      · exact (orderless_halo halo).apart access early access' early'
      · exact (across access early access' late').1
    · rcases List.mem_append.mp listed' with early' | late'
      · exact (across access' early' access late).2
      · exact (orderless_sweep _ _).apart access late access' late'

theorem orderless_first (k : ℕ) (version : Version) :
    Orderless cols (firstInOrder halos k version) := by
  cases version with
  | sweepomp1 => exact orderless_halo (halos k)
  | sweepomp2 => exact orderless_halo (halos k)
  | sweepomp3 => exact orderless_overlap (halos k)

theorem orderless_second (version : Version) :
    Orderless cols (secondInOrder myrows cols version) := by
  cases version with
  | sweepomp1 => exact orderless_sweep _ _
  | sweepomp2 => exact orderless_sweep _ _
  | sweepomp3 => exact orderless_edges

/-! ### What the threads share -/

theorem flatMap_onlyBy {α : Type} (thread : Fin threads) (items : List α) :
    (List.finRange threads).flatMap (onlyBy thread items) = items := by
  obtain ⟨front, back, split⟩ := List.append_of_mem (List.mem_finRange thread)
  have nodup := List.nodup_finRange threads
  rw [split, List.nodup_middle] at nodup
  have absent := (List.nodup_cons.mp nodup).1
  have nothing : ∀ others : List (Fin threads), thread ∉ others →
      others.flatMap (onlyBy thread items) = [] := fun others missing => by
    refine List.flatMap_eq_nil_iff.mpr fun other listed => if_neg ?_
    rintro rfl
    exact missing listed
  rw [split, List.flatMap_append, List.flatMap_cons,
    nothing front fun listed => absent (List.mem_append_left _ listed),
    nothing back fun listed => absent (List.mem_append_right _ listed), onlyBy, if_pos rfl,
    List.nil_append, List.append_nil]

/-- The shares of all threads are the iterations of the loop. -/
theorem Shares.flatMap_perm {iterations : List ℕ} (shares : Shares threads iterations)
    (accesses : ℕ → List Access) :
    ((List.finRange threads).flatMap fun thread => (shares.share thread).flatMap accesses).Perm
      (iterations.flatMap accesses) := by
  have nested := List.flatMap_assoc (l := List.finRange threads) (f := shares.share) (g := accesses)
  rw [← nested]
  exact shares.complete.flatMap_right accesses

theorem firstAccesses_perm (k : ℕ) (version : Version) :
    ((List.finRange threads).flatMap (firstAccesses schedule halos k version)).Perm
      (firstInOrder halos k version) := by
  cases version with
  | sweepomp1 => exact List.Perm.of_eq (flatMap_onlyBy _ _)
  | sweepomp2 => exact List.Perm.of_eq (flatMap_onlyBy _ _)
  | sweepomp3 =>
      have split := List.flatMap_append_perm (List.finRange threads)
        (onlyBy (schedule.single k) (halos k).accesses)
        fun thread => ((schedule.inner k).share thread).flatMap (rowAccesses cols)
      rw [flatMap_onlyBy] at split
      exact split.symm.trans (((schedule.inner k).flatMap_perm (rowAccesses cols)).append_left _)

theorem secondAccesses_perm (k : ℕ) (version : Version) :
    ((List.finRange threads).flatMap (secondAccesses schedule k version)).Perm
      (secondInOrder myrows cols version) := by
  cases version with
  | sweepomp1 => exact (schedule.rows k).flatMap_perm (rowAccesses cols)
  | sweepomp2 => exact (schedule.rows k).flatMap_perm (rowAccesses cols)
  | sweepomp3 => exact (schedule.columns k).flatMap_perm (edgeAccesses myrows)

/-! ### The team, phase by phase -/

variable (ntimes : ℕ) (version : Version)

/-- The memory after `k` iterations, with all loops in order. -/
def sweptAt (mem : Mem) : ℕ → Mem
  | 0 => mem
  | k + 1 =>
      applyAll cols (pointersAt k) (secondInOrder myrows cols version)
        (applyAll cols (pointersAt k) (firstInOrder halos k version) (sweptAt mem k))

theorem pointersAt_different (k : ℕ) : (pointersAt k).temp ≠ (pointersAt k).matrix :=
  Buffer.swap_ne _

theorem pointersAt_succ (k : ℕ) : (pointersAt k).swap = pointersAt (k + 1) := by
  rw [pointersAt, pointersAt, tempAt, tempAt, matrixAt]
  cases matrixAt k <;> rfl

/-- Assignments leave the pointers. -/
theorem runItems_entries (pointers : Pointers) (entries : List (Fin threads × Access)) (mem : Mem) :
    (sweepTeam schedule halos ntimes version).runItems
        (entries.map fun entry => (entry.1, .access entry.2)) ⟨mem, fun _ => pointers⟩ =
      ⟨applyAll cols pointers (entries.map Prod.snd) mem, fun _ => pointers⟩ := by
  induction entries generalizing mem with
  | nil => rfl
  | cons entry rest ih => exact ih (entry.2.apply cols pointers mem)

theorem runItems_accesses (pointers : Pointers) (accesses : Fin threads → List Access) (mem : Mem) :
    (sweepTeam schedule halos ntimes version).runItems
        (pending fun thread => (accesses thread).map .access) ⟨mem, fun _ => pointers⟩ =
      ⟨applyAll cols pointers ((List.finRange threads).flatMap accesses) mem,
        fun _ => pointers⟩ := by
  have entries := runItems_entries schedule halos ntimes version pointers (pending accesses) mem
  have tagged : (pending accesses).map (fun entry => (entry.1, Item.access entry.2)) =
      pending fun thread => (accesses thread).map .access := by
    simp only [pending, List.map_flatMap, List.map_map]
    rfl
  have untagged : (pending accesses).map Prod.snd = (List.finRange threads).flatMap accesses := by
    simp only [pending, List.map_flatMap, List.map_map]
    exact List.flatMap_congr fun thread _ => List.map_id _
  rw [tagged, untagged] at entries
  exact entries

/-- Each thread swaps its own pointers. -/
theorem runItems_swap (listed : List (Fin threads)) (nodup : listed.Nodup) (store : Store threads) :
    (sweepTeam schedule halos ntimes version).runItems (listed.map fun thread => (thread, .swap))
        store =
      ⟨store.mem, fun thread =>
        if thread ∈ listed then (store.pointers thread).swap else store.pointers thread⟩ := by
  induction listed generalizing store with
  | nil => rfl
  | cons first rest ih =>
      obtain ⟨absent, later⟩ := List.nodup_cons.mp nodup
      refine (ih later _).trans (congrArg (Store.mk store.mem) ?_)
      ext1 thread
      by_cases own : thread = first
      · subst own
        rw [if_neg absent, if_pos List.mem_cons_self]
        exact Function.update_self _ _ _
      · simp only [List.mem_cons, own, false_or]
        have kept : ((sweepTeam schedule halos ntimes version).exec first .swap store).pointers
            thread = store.pointers thread := Function.update_of_ne own _ _
        rw [kept]

/-- All versions swap the pointers of all threads. -/
theorem runItems_swaps (mem : Mem) (pointers : Pointers) :
    (sweepTeam schedule halos ntimes version).runItems (pending (swaps schedule version))
        ⟨mem, fun _ => pointers⟩ = ⟨mem, fun _ => pointers.swap⟩ := by
  have own : (sweepTeam schedule halos ntimes version).runItems (pending fun _ => [Item.swap])
      ⟨mem, fun _ => pointers⟩ = ⟨mem, fun _ => pointers.swap⟩ := by
    have each : pending (fun _ : Fin threads => [Item.swap]) =
        (List.finRange threads).map fun thread => (thread, .swap) := List.map_eq_flatMap.symm
    rw [each, runItems_swap schedule halos ntimes version _ (List.nodup_finRange threads)]
    exact congrArg (Store.mk mem) (funext fun thread => if_pos (List.mem_finRange thread))
  cases version with
  | sweepomp1 => exact own
  | sweepomp2 =>
      have one : pending (swaps schedule .sweepomp2) = [(schedule.initial, .swapShared)] := by
        rw [← flatMap_onlyBy schedule.initial [(schedule.initial, Item.swapShared)]]
        refine List.flatMap_congr fun thread _ => ?_
        rw [swaps, onlyBy, onlyBy]
        split
        · rename_i same
          rw [same, List.map_singleton]
        · rfl
      rw [one]
      rfl
  | sweepomp3 => exact own

/-- What the threads do in the three phases of an iteration. -/
theorem workAt_phases {k : ℕ} (inTime : k < ntimes) :
    (sweepTeam schedule halos ntimes version).workAt (3 * k) =
        (fun thread => (firstAccesses schedule halos k version thread).map .access) ∧
      (sweepTeam schedule halos ntimes version).workAt (3 * k + 1) =
        (fun thread => (secondAccesses schedule k version thread).map .access) ∧
      (sweepTeam schedule halos ntimes version).workAt (3 * k + 2) = swaps schedule version := by
  have first : 3 * k % 3 = 0 ∧ 3 * k / 3 = k := by omega
  have second : (3 * k + 1) % 3 = 1 ∧ (3 * k + 1) / 3 = k := by omega
  have third : (3 * k + 2) % 3 = 2 := by omega
  refine ⟨?_, ?_, ?_⟩
  · rw [Team.workAt, if_pos (by simp only [sweepTeam]; omega)]
    simp only [sweepTeam, first]
  · rw [Team.workAt, if_pos (by simp only [sweepTeam]; omega)]
    simp only [sweepTeam, second]
  · rw [Team.workAt, if_pos (by simp only [sweepTeam]; omega)]
    simp only [sweepTeam, third]

/-- The stores at the barriers of an iteration. -/
structure Iteration (mem : Mem) (k : ℕ) : Prop where
  first : (sweepTeam schedule halos ntimes version).sequential (sweepStart threads mem) (3 * k) =
    ⟨sweptAt halos version mem k, fun _ => pointersAt k⟩
  second : k < ntimes →
    (sweepTeam schedule halos ntimes version).sequential (sweepStart threads mem) (3 * k + 1) =
      ⟨applyAll cols (pointersAt k) (firstInOrder halos k version) (sweptAt halos version mem k),
        fun _ => pointersAt k⟩
  third : k < ntimes →
    (sweepTeam schedule halos ntimes version).sequential (sweepStart threads mem) (3 * k + 2) =
      ⟨sweptAt halos version mem (k + 1), fun _ => pointersAt k⟩

theorem iteration (mem : Mem) {k : ℕ} (bounded : k ≤ ntimes) :
    Iteration schedule halos ntimes version mem k := by
  have further : ∀ k, (sweepTeam schedule halos ntimes version).sequential
      (sweepStart threads mem) (3 * k) =
        ⟨sweptAt halos version mem k, fun _ => pointersAt k⟩ →
      Iteration schedule halos ntimes version mem k := by
    intro k first
    have second : k < ntimes → (sweepTeam schedule halos ntimes version).sequential
        (sweepStart threads mem) (3 * k + 1) = ⟨applyAll cols (pointersAt k)
          (firstInOrder halos k version) (sweptAt halos version mem k), fun _ => pointersAt k⟩ := by
      intro inTime
      rw [Team.sequential, first, (workAt_phases schedule halos ntimes version inTime).1,
        runItems_accesses]
      refine congrArg (Store.mk · _) ?_
      exact ((orderless_first halos k version).applyAll_perm (pointersAt_different k)
        (firstAccesses_perm schedule halos k version).symm _).symm
    refine ⟨first, second, fun inTime => ?_⟩
    rw [Team.sequential, second inTime, (workAt_phases schedule halos ntimes version inTime).2.1,
      runItems_accesses]
    refine congrArg (Store.mk · _) ?_
    exact ((orderless_second version).applyAll_perm (pointersAt_different k)
      (secondAccesses_perm schedule k version).symm _).symm
  induction k with
  | zero => exact further 0 rfl
  | succ k ih =>
      refine further (k + 1) ?_
      have inTime : k < ntimes := bounded
      rw [Nat.mul_succ, Team.sequential, (ih inTime.le).third inTime,
        (workAt_phases schedule halos ntimes version inTime).2.2, runItems_swaps, pointersAt_succ]

/-! ### Independence -/

/-- Assignments of different threads commute while the pointers of all threads agree. -/
theorem independent_accesses {accesses : Fin threads → List Access} {inOrder : List Access}
    (perm : ((List.finRange threads).flatMap accesses).Perm inOrder)
    (orderless : Orderless cols inOrder) (k : ℕ) :
    (sweepTeam schedule halos ntimes version).Independent
      (fun thread => (accesses thread).map .access)
      (fun store => store.pointers = fun _ => pointersAt k) where
  keeps thread item listed store uniform := by
    obtain ⟨access, _, rfl⟩ := List.mem_map.mp listed
    exact uniform
  commute thread other apart item listed item' listed' store uniform := by
    obtain ⟨access, inside, rfl⟩ := List.mem_map.mp listed
    obtain ⟨access', inside', rfl⟩ := List.mem_map.mp listed'
    have known : ∀ {thread : Fin threads} {access : Access}, access ∈ accesses thread →
        access ∈ inOrder := fun {thread} _ here =>
      perm.mem_iff.mp (List.mem_flatMap.mpr ⟨thread, List.mem_finRange thread, here⟩)
    simp only [sweepTeam, execItem, uniform]
    refine congrArg (Store.mk · _) ?_
    exact Access.apply_comm (pointersAt_different k) (orderless.within access (known inside))
      (orderless.within access' (known inside'))
      (orderless.apart access (known inside) access' (known inside')) store.mem

theorem independent_swaps :
    (sweepTeam schedule halos ntimes version).Independent (swaps schedule version)
      (fun _ => True) where
  keeps _ _ _ _ _ := trivial
  commute thread other apart item listed item' listed' store _ := by
    have own : item = .swap → item' = .swap →
        execItem cols thread item (execItem cols other item' store) =
          execItem cols other item' (execItem cols thread item store) := by
      rintro rfl rfl
      simp only [execItem, Function.update_of_ne apart, Function.update_of_ne apart.symm]
      exact congrArg (Store.mk store.mem) (Function.update_comm apart.symm _ _ _)
    cases version with
    | sweepomp1 => exact own (List.mem_singleton.mp listed) (List.mem_singleton.mp listed')
    | sweepomp3 => exact own (List.mem_singleton.mp listed) (List.mem_singleton.mp listed')
    | sweepomp2 =>
        -- only the initial thread has an item
        simp only [swaps, onlyBy] at listed listed'
        split at listed
        · split at listed'
          · rename_i first second
            exact absurd (first.trans second.symm) apart
          · cases listed'
        · cases listed

/-- The pointers of all threads agree in a phase of assignments. -/
def Uniform (ntimes phase : ℕ) (store : Store threads) : Prop :=
  phase < 3 * ntimes → phase % 3 ≠ 2 → store.pointers = fun _ => pointersAt (phase / 3)

theorem uniform_sequential (mem : Mem) (phase : ℕ) :
    Uniform ntimes phase
      ((sweepTeam schedule halos ntimes version).sequential (sweepStart threads mem) phase) := by
  intro inTime assigning
  have stores := iteration schedule halos ntimes version mem
    (show phase / 3 ≤ ntimes by omega)
  rcases (show phase = 3 * (phase / 3) ∨ phase = 3 * (phase / 3) + 1 by omega) with here | here
  · have first := congrArg Store.pointers stores.first
    rw [← here] at first
    exact first
  · have second := congrArg Store.pointers (stores.second (by omega))
    rw [← here] at second
    exact second

theorem independent_uniform (phase : ℕ) :
    (sweepTeam schedule halos ntimes version).Independent
      ((sweepTeam schedule halos ntimes version).workAt phase) (Uniform ntimes phase) := by
  by_cases inTime : phase < 3 * ntimes
  · obtain ⟨first, second, third⟩ :=
      workAt_phases schedule halos ntimes version (show phase / 3 < ntimes by omega)
    have weaken : ∀ {work : Fin threads → List Item}, phase % 3 ≠ 2 →
        (sweepTeam schedule halos ntimes version).Independent work
          (fun store => store.pointers = fun _ => pointersAt (phase / 3)) →
        (sweepTeam schedule halos ntimes version).Independent work (Uniform ntimes phase) :=
      fun assigning independent =>
        ⟨fun thread item listed store uniform _ _ =>
          independent.keeps thread item listed store (uniform inTime assigning),
        fun thread other apart item listed item' listed' store uniform =>
          independent.commute thread other apart item listed item' listed' store
            (uniform inTime assigning)⟩
    rcases (show phase = 3 * (phase / 3) ∨ phase = 3 * (phase / 3) + 1 ∨
      phase = 3 * (phase / 3) + 2 by omega) with here | here | here
    · rw [← here] at first
      rw [first]
      exact weaken (by omega) (independent_accesses schedule halos ntimes version
        (firstAccesses_perm schedule halos _ version) (orderless_first halos _ version) _)
    · rw [← here] at second
      rw [second]
      exact weaken (by omega) (independent_accesses schedule halos ntimes version
        (secondAccesses_perm schedule _ version) (orderless_second version) _)
    · rw [← here] at third
      rw [third]
      refine ⟨fun _ _ _ _ _ _ swapping => absurd ?_ swapping,
        fun thread other apart item listed item' listed' store _ =>
          (independent_swaps schedule halos ntimes version).commute thread other apart item listed
            item' listed' store trivial⟩
      omega
  · have nothing : (sweepTeam schedule halos ntimes version).workAt phase = fun _ => [] :=
      if_neg inTime
    rw [nothing]
    exact ⟨fun _ _ listed => absurd listed List.not_mem_nil,
      fun _ _ _ _ listed => absurd listed List.not_mem_nil⟩

/-- Every reachable state of the team. -/
theorem sweep_follows {mem : Mem} {state : State threads Item (Store threads)}
    (reachable : ((sweepTeam schedule halos ntimes version).system
      (sweepStart threads mem)).Reachable state) :
    (sweepTeam schedule halos ntimes version).Follows (Uniform ntimes) (sweepStart threads mem)
      state :=
  Team.follows_of_reachable (independent_uniform schedule halos ntimes version)
    (uniform_sequential schedule halos ntimes version mem) reachable

end

end HandsOn.Life
