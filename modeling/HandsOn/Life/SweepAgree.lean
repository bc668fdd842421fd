import HandsOn.Life.SweepOrder

/-!
# When the sweeps agree with the plain loop

For the first two versions the loops in order are the loops of `life`. The third assigns the
new state of the first row to the last row too.
-/

namespace HandsOn.Life

open OpenMP

/-! ### The plain loop -/

section

variable {myrows cols : ℕ} (halos : ℕ → Halo myrows cols)

/-- The halo, value by value. -/
theorem applyAll_halo (pointers : Pointers) (halo : Halo myrows cols) (mem : Mem) :
    applyAll cols pointers halo.accesses mem = halo.deliver pointers.matrix mem := by
  rw [applyAll, Halo.accesses, List.foldl_map]
  rfl

/-- The loops of `life` are the assignments to all rows in order. -/
theorem applyAll_sweep (k : ℕ) (mem : Mem) :
    applyAll cols (pointersAt k) (sweepAccesses cols 1 myrows) mem =
      sweep myrows cols (matrixAt k) (tempAt k) mem := by
  rw [applyAll, sweepAccesses, List.foldl_flatMap]
  simp only [rowAccesses, List.foldl_map]
  rfl

/-- The first two versions are the plain loop. -/
theorem sweptAt_eq_lifeLoop {version : Version} (split : version ≠ .sweepomp3) (mem : Mem) (k : ℕ) :
    sweptAt halos version mem k = lifeLoop halos mem k := by
  induction k with
  | zero => rfl
  | succ k ih =>
      rw [sweptAt, lifeLoop, ih]
      cases version with
      | sweepomp1 => exact (applyAll_sweep k _).trans (congrArg _ (applyAll_halo _ _ _))
      | sweepomp2 => exact (applyAll_sweep k _).trans (congrArg _ (applyAll_halo _ _ _))
      | sweepomp3 => exact absurd rfl split

/-! ### The overlapped loops -/

/-- The inner rows, then the first and the last. -/
def overlapAccesses (myrows cols : ℕ) : List Access :=
  sweepAccesses cols 2 (myrows - 2) ++ (List.range' 1 cols).flatMap (edgeAccesses myrows)

theorem mem_overlapAccesses {access : Access} :
    access ∈ overlapAccesses myrows cols ↔
      ∃ row source col, access = .assign row source col ∧ (1 ≤ col ∧ col ≤ cols) ∧
        ((source = row ∧ 2 ≤ row ∧ row < myrows) ∨ (source = 1 ∧ (row = 1 ∨ row = myrows))) := by
  rw [overlapAccesses, List.mem_append, mem_sweepAccesses, mem_edgeAccesses]
  constructor
  · rintro (⟨row, col, rfl, inRows, inCols⟩ | ⟨row, col, rfl, edge, inCols⟩)
    · exact ⟨row, row, col, rfl, inCols, .inl (by omega)⟩
    · exact ⟨row, 1, col, rfl, inCols, .inr ⟨rfl, edge⟩⟩
  · rintro ⟨row, source, col, rfl, inCols, ⟨rfl, inRows⟩ | ⟨rfl, edge⟩⟩
    · exact .inl ⟨source, col, rfl, by omega, inCols⟩
    · exact .inr ⟨row, col, rfl, edge, inCols⟩

/-- The last row gets the new state of the first. -/
theorem overlap_cell {row col : ℕ} (inside : Inside myrows cols row col) (k : ℕ) (mem : Mem) :
    applyAll cols (pointersAt k) (overlapAccesses myrows cols) mem
        (entry cols (tempAt k) row col) =
      nextstate (view cols (matrixAt k) mem) (if row = myrows then 1 else row) col := by
  obtain ⟨⟨firstRow, lastRow⟩, inCols⟩ := inside
  refine applyAll_cell (pointersAt_different k) inCols.2 (fun access listed => ?_) ?_ mem
  · obtain ⟨row', source, col', rfl, inCols', cases⟩ := mem_overlapAccesses.mp listed
    refine ⟨row', source, col', rfl, inCols'.2, fun sameRow _ => ?_⟩
    split <;> omega
  · refine mem_overlapAccesses.mpr ⟨row, _, col, rfl, inCols, ?_⟩
    split
    · rename_i last
      exact .inr ⟨rfl, .inr last⟩
    · rcases Nat.eq_or_lt_of_le firstRow with first | later
      · exact .inr ⟨first.symm, .inl first.symm⟩
      · exact .inl ⟨rfl, by omega⟩

/-- The overlapped loops are the plain ones where the first and the last row have the same new
state. -/
theorem overlap_eq_sweep {k : ℕ} {mem : Mem} (nonempty : 1 ≤ myrows)
    (same : ∀ col, 1 ≤ col → col ≤ cols → nextstate (view cols (matrixAt k) mem) myrows col =
      nextstate (view cols (matrixAt k) mem) 1 col) :
    applyAll cols (pointersAt k) (overlapAccesses myrows cols) mem =
      sweep myrows cols (matrixAt k) (tempAt k) mem := by
  ext1 address
  by_cases interior : ∃ row col, Inside myrows cols row col ∧
      address = entry cols (tempAt k) row col
  · obtain ⟨row, col, inside, rfl⟩ := interior
    rw [overlap_cell inside, sweep_interior (show tempAt k ≠ matrixAt k from Buffer.swap_ne _)
      inside]
    split
    · rename_i last
      rw [last]
      exact (same col inside.2.1 inside.2.2).symm
    · rfl
  · rw [sweep_frame fun i j firstRow lastRow firstCol lastCol equal =>
      interior ⟨i, j, ⟨⟨firstRow, lastRow⟩, firstCol, lastCol⟩, equal⟩]
    refine applyAll_frame (fun access listed => ?_) mem
    obtain ⟨row, source, col, rfl, inCols, cases⟩ := mem_overlapAccesses.mp listed
    refine ⟨row, source, col, rfl, fun equal => ?_⟩
    exact interior ⟨row, col, ⟨by omega, inCols⟩, equal⟩

/-- The third version, iteration by iteration. -/
theorem sweptAt_overlap (mem : Mem) (k : ℕ) :
    sweptAt halos .sweepomp3 mem (k + 1) =
      applyAll cols (pointersAt k) (overlapAccesses myrows cols)
        ((halos k).deliver (matrixAt k) (sweptAt halos .sweepomp3 mem k)) := by
  rw [← show _ = (halos k).deliver (matrixAt k) _ from applyAll_halo (pointersAt k) (halos k)
    (sweptAt halos .sweepomp3 mem k)]
  simp only [sweptAt, firstInOrder, secondInOrder, overlapAccesses, applyAll, List.foldl_append]

/-- In iteration `k` of the plain loop the last row gets the new state of the first. -/
def SameEdges (mem : Mem) (k : ℕ) : Prop :=
  ∀ col, 1 ≤ col → col ≤ cols →
    nextstate (view cols (matrixAt k) ((halos k).deliver (matrixAt k) (lifeLoop halos mem k)))
        myrows col =
      nextstate (view cols (matrixAt k) ((halos k).deliver (matrixAt k) (lifeLoop halos mem k)))
        1 col

/-- While the edges have the same new states, the third version is the plain loop. -/
theorem sweptAt_eq_of_sameEdges {mem : Mem} (nonempty : 1 ≤ myrows) {k : ℕ}
    (same : ∀ j < k, SameEdges halos mem j) :
    sweptAt halos .sweepomp3 mem k = lifeLoop halos mem k := by
  induction k with
  | zero => rfl
  | succ k ih =>
      rw [sweptAt_overlap, ih fun j earlier => same j (Nat.lt_succ_of_lt earlier), lifeLoop]
      exact overlap_eq_sweep nonempty (same k (Nat.lt_succ_self k))

/-- An iteration of the third version with other edges shows in the last row. -/
theorem sameEdges_of_cells {mem : Mem} (nonempty : 1 ≤ myrows) {ntimes : ℕ}
    (cells : ∀ k ≤ ntimes, ∀ row col, Inside myrows cols row col →
      view cols (matrixAt k) (sweptAt halos .sweepomp3 mem k) row col =
        view cols (matrixAt k) (lifeLoop halos mem k) row col) :
    ∀ k < ntimes, SameEdges halos mem k := by
  intro k
  induction k using Nat.strong_induction_on with
  | _ k ih =>
      intro inTime col firstCol lastCol
      have inside : Inside myrows cols myrows col := ⟨⟨nonempty, Nat.le_refl _⟩, firstCol, lastCol⟩
      have equal := sweptAt_eq_of_sameEdges halos nonempty fun j earlier =>
        ih j earlier (earlier.trans inTime)
      have cell := cells (k + 1) inTime myrows col inside
      rw [sweptAt_overlap, equal, lifeLoop] at cell
      have swept : view cols (matrixAt (k + 1)) _ myrows col = _ := overlap_cell inside k
        ((halos k).deliver (matrixAt k) (lifeLoop halos mem k))
      rw [if_pos rfl] at swept
      exact (sweep_interior (Buffer.swap_ne _) inside _).symm.trans (cell.symm.trans swept)

end

/-! ### The three versions -/

section

variable {threads myrows cols : ℕ} (schedule : Schedule threads myrows cols)
  (halos : ℕ → Halo myrows cols) (mem : Mem) (ntimes : ℕ) (version : Version)

/-- Some run reaches each barrier. -/
theorem exists_atBarrier {phase : ℕ} (bounded : phase ≤ 3 * ntimes) :
    ∃ state, ((sweepTeam schedule halos ntimes version).system
      (sweepStart threads mem)).Reachable state ∧
        (sweepTeam schedule halos ntimes version).AtBarrier phase state :=
  Team.exists_atBarrier _ bounded

/-- Every run has the cells of the loops in order, and there are runs. -/
theorem cells_iff :
    (∀ state, ((sweepTeam schedule halos ntimes version).system
        (sweepStart threads mem)).Reachable state →
      ∀ k ≤ ntimes, (sweepTeam schedule halos ntimes version).AtBarrier (3 * k) state →
        ∀ thread row col, Inside myrows cols row col →
          view cols (state.store.pointers thread).matrix state.store.mem row col =
            view cols (matrixAt k) (lifeLoop halos mem k) row col) ↔
      ∀ k ≤ ntimes, ∀ row col, Inside myrows cols row col →
        view cols (matrixAt k) (sweptAt halos version mem k) row col =
          view cols (matrixAt k) (lifeLoop halos mem k) row col := by
  have stored : ∀ state, ((sweepTeam schedule halos ntimes version).system
      (sweepStart threads mem)).Reachable state → ∀ k ≤ ntimes,
      (sweepTeam schedule halos ntimes version).AtBarrier (3 * k) state →
        state.store = ⟨sweptAt halos version mem k, fun _ => pointersAt k⟩ :=
    fun state reachable k bounded barrier =>
      (barrier.store_eq (sweep_follows schedule halos ntimes version reachable)).trans
        (iteration schedule halos ntimes version mem bounded).first
  constructor
  · intro cells k bounded row col inside
    obtain ⟨state, reachable, barrier⟩ := exists_atBarrier schedule halos mem ntimes version
      (show 3 * k ≤ 3 * ntimes by omega)
    have cell := cells state reachable k bounded barrier schedule.initial row col inside
    rw [stored state reachable k bounded barrier] at cell
    exact cell
  · intro cells state reachable k bounded barrier thread row col inside
    rw [stored state reachable k bounded barrier]
    exact cells k bounded row col inside

/-- The items of a phase are assignments in the order of the source, or swaps. -/
theorem rows_of_workAt {phase : ℕ} {thread : Fin threads} {item : Item}
    (listed : item ∈ (sweepTeam schedule halos ntimes version).workAt phase thread)
    (bounded : ∀ k, ∀ access ∈ firstInOrder halos k version ++ secondInOrder myrows cols version,
      ∀ row ∈ access.rows, row ≤ myrows + 1) : ∀ row ∈ item.rows, row ≤ myrows + 1 := by
  by_cases inTime : phase < 3 * ntimes
  · obtain ⟨first, second, third⟩ :=
      workAt_phases schedule halos ntimes version (show phase / 3 < ntimes by omega)
    rcases (show phase = 3 * (phase / 3) ∨ phase = 3 * (phase / 3) + 1 ∨
      phase = 3 * (phase / 3) + 2 by omega) with here | here | here
    · rw [← here] at first
      rw [first] at listed
      obtain ⟨access, inside, rfl⟩ := List.mem_map.mp listed
      exact bounded (phase / 3) access (List.mem_append_left _
        ((firstAccesses_perm schedule halos _ version).mem_iff.mp
          (List.mem_flatMap.mpr ⟨thread, List.mem_finRange thread, inside⟩)))
    · rw [← here] at second
      rw [second] at listed
      obtain ⟨access, inside, rfl⟩ := List.mem_map.mp listed
      exact bounded (phase / 3) access (List.mem_append_right _
        ((secondAccesses_perm schedule _ version).mem_iff.mp
          (List.mem_flatMap.mpr ⟨thread, List.mem_finRange thread, inside⟩)))
    · rw [← here] at third
      rw [third] at listed
      have swap : item = .swap ∨ item = .swapShared := by
        cases version with
        | sweepomp1 => exact .inl (List.mem_singleton.mp listed)
        | sweepomp3 => exact .inl (List.mem_singleton.mp listed)
        | sweepomp2 =>
            simp only [swaps, onlyBy] at listed
            split at listed
            · exact .inr (List.mem_singleton.mp listed)
            · cases listed
      rcases swap with rfl | rfl <;> exact fun _ read => absurd read List.not_mem_nil
  · have nothing : (sweepTeam schedule halos ntimes version).workAt phase = fun _ => [] :=
      if_neg inTime
    rw [nothing] at listed
    cases listed

/-- The halo is delivered, not read. -/
theorem rows_halo {halo : Halo myrows cols} {access : Access} (listed : access ∈ halo.accesses) :
    access.rows = [] := by
  obtain ⟨target, _, rfl⟩ := mem_accesses.mp listed
  rfl

/-- The first two versions agree with the plain loop. -/
theorem agrees_of_split (split : version ≠ .sweepomp3) :
    Agrees schedule halos mem ntimes version where
  cells := (cells_iff schedule halos mem ntimes version).mpr fun k _ row col _ => by
    rw [sweptAt_eq_lifeLoop halos split]
  rows state reachable thread item listed := by
    refine rows_of_workAt schedule halos ntimes version
      (((sweep_follows schedule halos ntimes version reachable).remaining thread).subset listed)
      fun k access inOrder row read => ?_
    have all : access ∈ (halos k).accesses ++ sweepAccesses cols 1 myrows := by
      cases version with
      | sweepomp1 => exact inOrder
      | sweepomp2 => exact inOrder
      | sweepomp3 => exact absurd rfl split
    rcases List.mem_append.mp all with early | late
    · rw [rows_halo early] at read
      cases read
    · obtain ⟨i, j, rfl, inRows, _⟩ := mem_sweepAccesses.mp late
      simp only [Access.rows, List.mem_cons, List.not_mem_nil, or_false] at read
      omega

/-- Some thread computes entry 1 of what the third version takes for the first row. -/
theorem reads_row_two (some_cols : 1 ≤ cols) :
    ∃ thread, .assign 1 1 1 ∈ secondAccesses schedule 0 .sweepomp3 thread := by
  have listed : .assign 1 1 1 ∈ secondInOrder myrows cols .sweepomp3 :=
    mem_edgeAccesses.mpr ⟨1, 1, rfl, .inl rfl, Nat.le_refl 1, some_cols⟩
  obtain ⟨thread, _, inside⟩ := List.mem_flatMap.mp
    ((secondAccesses_perm schedule 0 .sweepomp3).mem_iff.mpr listed)
  exact ⟨thread, inside⟩

/-- The third version agrees with the plain loop exactly if it makes no iteration, or the block
has rows, the first and the last of which get the same new state in every iteration. -/
theorem agrees_overlap_iff (some_cols : 1 ≤ cols) :
    Agrees schedule halos mem ntimes .sweepomp3 ↔
      ntimes = 0 ∨ (1 ≤ myrows ∧ ∀ k < ntimes, SameEdges halos mem k) := by
  have cells := cells_iff schedule halos mem ntimes .sweepomp3
  constructor
  · intro agrees
    rcases Nat.eq_zero_or_pos ntimes with none | some
    · exact .inl none
    · have nonempty : 1 ≤ myrows := by
        by_contra empty
        obtain ⟨thread, listed⟩ := reads_row_two schedule some_cols
        obtain ⟨state, reachable, barrier⟩ := exists_atBarrier schedule halos mem ntimes .sweepomp3
          (show 1 ≤ 3 * ntimes by omega)
        have work := (workAt_phases schedule halos ntimes .sweepomp3 some).2.1
        have todo : Item.access (.assign 1 1 1) ∈ state.todo thread := by
          rw [barrier.todo_eq, work]
          exact List.mem_map_of_mem listed
        have read := agrees.rows state reachable thread _ todo 2 (by decide)
        omega
      exact .inr ⟨nonempty, sameEdges_of_cells halos nonempty (cells.mp agrees.cells)⟩
  · rintro (rfl | ⟨nonempty, same⟩)
    · refine ⟨cells.mpr fun k none row col _ => ?_, fun state reachable thread item listed => ?_⟩
      · rw [Nat.le_zero.mp none]
        rfl
      · have inside := ((sweep_follows schedule halos 0 .sweepomp3 reachable).remaining
          thread).subset listed
        rw [show (sweepTeam schedule halos 0 .sweepomp3).workAt state.phase = fun _ => [] from
          if_neg (Nat.not_lt_zero _)] at inside
        cases inside
    · refine ⟨cells.mpr fun k bounded row col _ => ?_, fun state reachable thread item listed => ?_⟩
      · rw [sweptAt_eq_of_sameEdges halos nonempty fun j earlier =>
          same j (Nat.lt_of_lt_of_le earlier bounded)]
      · refine rows_of_workAt schedule halos ntimes .sweepomp3
          (((sweep_follows schedule halos ntimes .sweepomp3 reachable).remaining thread).subset
            listed) fun k access inOrder row read => ?_
        rw [firstInOrder, secondInOrder, List.append_assoc] at inOrder
        rcases List.mem_append.mp inOrder with early | late
        · rw [rows_halo early] at read
          cases read
        · obtain ⟨i, source, j, rfl, _, cases⟩ := mem_overlapAccesses.mp late
          simp only [Access.rows, List.mem_cons, List.not_mem_nil, or_false] at read
          omega

/-- All versions agree with the plain loop exactly if the third makes no iteration, or the block
has rows, the first and the last of which get the same new state in every iteration; the first
two agree with it always. -/
theorem sweeps_agree_iff (some_cols : 1 ≤ cols) :
    ((∀ version, Agrees schedule halos mem ntimes version) ↔
      ntimes = 0 ∨ (1 ≤ myrows ∧ ∀ k < ntimes, SameEdges halos mem k)) ∧
    Agrees schedule halos mem ntimes .sweepomp1 ∧ Agrees schedule halos mem ntimes .sweepomp2 := by
  have first := agrees_of_split schedule halos mem ntimes .sweepomp1 nofun
  have second := agrees_of_split schedule halos mem ntimes .sweepomp2 nofun
  have third := agrees_overlap_iff schedule halos mem ntimes some_cols
  refine ⟨⟨fun all => third.mp (all .sweepomp3), fun condition version => ?_⟩, first, second⟩
  cases version with
  | sweepomp1 => exact first
  | sweepomp2 => exact second
  | sweepomp3 => exact third.mpr condition

end

/-! One thread, and a halo that is alive above the block. -/

/-- One thread takes all iterations in order. -/
private def loneShares (iterations : List ℕ) : Shares 1 iterations where
  share _ := iterations
  complete := List.Perm.of_eq (List.append_nil iterations)

private def loneSchedule (myrows cols : ℕ) : Schedule 1 myrows cols where
  single _ := 0
  initial := 0
  rows _ := loneShares _
  inner _ := loneShares _
  columns _ := loneShares _

private def liveAbove (myrows : ℕ) : Halo myrows 1 where
  targets := [(0, 0), (0, 1), (0, 2)]
  value _ _ := born
  outside := by simp

theorem sweeps_agree_one_row :
    Agrees (loneSchedule 1 1) (fun _ => liveAbove 1) (fun _ => dies) 1 .sweepomp3 :=
  (sweeps_agree_iff (loneSchedule 1 1) (fun _ => liveAbove 1) (fun _ => dies) 1
    (Nat.le_refl 1)).1.mpr (.inr ⟨Nat.le_refl 1, fun _ _ _ _ _ => rfl⟩) .sweepomp3

/-- Two rows, of which the first gets a live cell and the second does not. -/
theorem sweeps_disagree_two_rows :
    ¬ ∀ version, Agrees (loneSchedule 2 1) (fun _ => liveAbove 2) (fun _ => dies) 1 version := by
  intro agrees
  rcases (agrees_overlap_iff (loneSchedule 2 1) (fun _ => liveAbove 2) (fun _ => dies) 1
    (Nat.le_refl 1)).mp (agrees .sweepomp3) with none | ⟨_, same⟩
  · cases none
  · have edges := same 0 Nat.zero_lt_one 1 (Nat.le_refl 1) (Nat.le_refl 1)
    exact absurd edges (by decide)

end HandsOn.Life
