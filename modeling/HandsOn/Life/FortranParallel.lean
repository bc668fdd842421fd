import HandsOn.Life.FortranExchange

/-!
# Life in Fortran with its exchanges

The processes of `mlife2df` run on their own, with the messages or the puts of `MLIFE_exchange`
arriving in any order. Where no buffer of a call overlaps another, they compute what they would in
step, and each call that returns shows each patch the current generation around it.
-/

namespace HandsOn.Life.Fortran

open Mpi Semantics Semantics.Fortran

variable {nprocs gRows gCols calls k : ℕ} {dims : Dims nprocs} {grid : Grid}
  {memory : Fin nprocs → Mem} {rank source dest : Fin nprocs} {origin address : Addr}

/-! ### What a call moves -/

theorem rowPlaces_pair {lCols row row' : ℕ} :
    (∃ index : ℕ, (rowPlaces lCols k row)[index]? = some origin ∧
      (rowPlaces lCols k row')[index]? = some address) ↔
    ∃ col, (1 ≤ col ∧ col ≤ lCols) ∧ origin = place (matrixAt k) row col ∧
      address = place (matrixAt k) row' col := by
  simp only [rowPlaces_getElem?]
  constructor
  · rintro ⟨index, ⟨inside, sent⟩, _, stored⟩
    exact ⟨index + 1, ⟨Nat.succ_pos _, inside⟩, sent, stored⟩
  · rintro ⟨col, ⟨first, last⟩, sent, stored⟩
    rw [← Nat.sub_add_cancel first] at sent stored
    exact ⟨col - 1, ⟨by omega, sent⟩, by omega, stored⟩

theorem colPlaces_pair {lRows col col' : ℕ} :
    (∃ index : ℕ, (colPlaces lRows k col)[index]? = some origin ∧
      (colPlaces lRows k col')[index]? = some address) ↔
    ∃ row ≤ lRows + 1, origin = place (matrixAt k) row col ∧
      address = place (matrixAt k) row col' := by
  simp only [colPlaces_getElem?, Nat.lt_succ_iff]
  constructor
  · rintro ⟨row, ⟨inside, sent⟩, _, stored⟩
    exact ⟨row, inside, sent, stored⟩
  · rintro ⟨row, inside, sent, stored⟩
    exact ⟨row, ⟨inside, sent⟩, inside, stored⟩

theorem rows_transfers : (halo dims gRows gCols calls).exchange.Transfers (2 * k) source dest
      origin address ↔ 2 * k < 2 * calls ∧
    ((dims.Below dest source ∧ ∃ col, (1 ≤ col ∧ col ≤ dims.colsOf gCols dest) ∧
        origin = place (matrixAt k) 1 col ∧
        address = place (matrixAt k) (dims.rowsOf gRows dest + 1) col) ∨
      dims.Below source dest ∧ ∃ col, (1 ≤ col ∧ col ≤ dims.colsOf gCols dest) ∧
        origin = place (matrixAt k) (dims.rowsOf gRows source) col ∧
        address = place (matrixAt k) 0 col) := by
  have even : 2 * k % 2 = 0 := Nat.mul_mod_right 2 k
  have half : 2 * k / 2 = k := by omega
  rw [Halo.transfers_iff, Neighbours.moves_iff_or]
  simp only [halo, if_pos even, half, vertical, rowEdges, dims.top_eq_some]
  refine and_congr_right fun _ => or_congr ?_ ?_
  · refine and_congr_right fun above => ?_
    rw [dims.colsOf_eq gCols above]
    exact rowPlaces_pair
  · refine and_congr_right fun below => ?_
    rw [dims.colsOf_eq gCols below]
    exact rowPlaces_pair

theorem cols_transfers : (halo dims gRows gCols calls).exchange.Transfers (2 * k + 1) source dest
      origin address ↔ 2 * k + 1 < 2 * calls ∧
    ((dims.RightOf dest source ∧ ∃ row ≤ dims.rowsOf gRows dest + 1,
        origin = place (matrixAt k) row 1 ∧
        address = place (matrixAt k) row (dims.colsOf gCols dest + 1)) ∨
      dims.RightOf source dest ∧ ∃ row ≤ dims.rowsOf gRows dest + 1,
        origin = place (matrixAt k) row (dims.colsOf gCols source) ∧
        address = place (matrixAt k) row 0) := by
  have odd : ¬ (2 * k + 1) % 2 = 0 := by omega
  have half : (2 * k + 1) / 2 = k := by omega
  rw [Halo.transfers_iff, Neighbours.moves_iff_or]
  simp only [halo, if_neg odd, half, horizontal, colEdges, dims.left_eq_some]
  refine and_congr_right fun _ => or_congr ?_ ?_
  · refine and_congr_right fun left => ?_
    rw [dims.rowsOf_eq gRows left]
    exact colPlaces_pair
  · refine and_congr_right fun right => ?_
    rw [dims.rowsOf_eq gRows right]
    exact colPlaces_pair

/-! ### One call -/

/-- What the processes hold before call `k`: a generation, and nothing alive beyond the mesh. -/
structure Ready (dims : Dims nprocs) (gRows gCols : ℕ) (grid : Grid) (k : ℕ)
    (memory : Fin nprocs → Mem) : Prop where
  holds : Holds dims gRows gCols grid k fun rank => arrayIn (matrixAt k) (memory rank)
  dead : DeadBeyond dims gRows gCols fun rank => arrayIn (matrixAt k) (memory rank)
  dead2 : DeadBeyond dims gRows gCols fun rank => arrayIn (tempAt k) (memory rank)

/-- Every patch sees the generation, with its halo. -/
def Sees (dims : Dims nprocs) (gRows gCols : ℕ) (grid : Grid) (k : ℕ)
    (arrays : Fin nprocs → Array2) : Prop :=
  ∀ rank, ∀ row ≤ dims.rowsOf gRows rank + 1, ∀ col ≤ dims.colsOf gCols rank + 1,
    arrays rank row col = dims.target gRows gCols grid k rank row col

section Call

variable (fits : AllFit dims gRows gCols) {row col : ℕ}
include fits

/-- The first phase leaves what is not in a halo row, and halo rows beyond the mesh. -/
theorem arrived_rows_kept (inRows : row ≤ dims.rowsOf gRows rank + 1)
    (kept : (row = 0 ∧ dims.prow rank = 0) ∨
      (row = dims.rowsOf gRows rank + 1 ∧ dims.prow rank + 1 = dims.prows) ∨
      (1 ≤ row ∧ row ≤ dims.rowsOf gRows rank) ∨ col = 0 ∨ col = dims.colsOf gCols rank + 1) :
    (halo dims gRows gCols calls).exchange.arrived (2 * k) memory rank
      (place (matrixAt k) row col) = memory rank (place (matrixAt k) row col) := by
  refine Exchange.arrived_of_kept fun source origin moves => ?_
  have inArray : row < maxLRows := fits.lt_maxLRows rank inRows
  have inMesh := dims.prow_lt source
  obtain ⟨_, ⟨⟨under, _⟩, col', inside, _, same⟩ | ⟨⟨under, _⟩, col', inside, _, same⟩⟩ :=
    rows_transfers.mp moves
  · obtain ⟨_, atRow, atCol⟩ := (place_inj inArray (fits.lt_maxLRows rank (Nat.le_refl _))).mp same
    omega
  · obtain ⟨_, atRow, atCol⟩ := (place_inj inArray (fits.lt_maxLRows rank (Nat.zero_le _))).mp same
    omega

/-- The second phase leaves what is not in a halo column, and halo columns beyond the mesh. -/
theorem arrived_cols_kept (inRows : row ≤ dims.rowsOf gRows rank + 1)
    (kept : (col = 0 ∧ dims.pcol rank = 0) ∨
      (col = dims.colsOf gCols rank + 1 ∧ dims.pcol rank + 1 = dims.pcols) ∨
      1 ≤ col ∧ col ≤ dims.colsOf gCols rank) :
    (halo dims gRows gCols calls).exchange.arrived (2 * k + 1) memory rank
      (place (matrixAt k) row col) = memory rank (place (matrixAt k) row col) := by
  refine Exchange.arrived_of_kept fun source origin moves => ?_
  have inArray : row < maxLRows := fits.lt_maxLRows rank inRows
  have inMesh := dims.pcol_lt source
  obtain ⟨_, ⟨⟨_, beside⟩, row', inside, _, same⟩ | ⟨⟨_, beside⟩, row', inside, _, same⟩⟩ :=
    cols_transfers.mp moves
  · obtain ⟨_, atRow, atCol⟩ := (place_inj inArray (fits.lt_maxLRows rank inside)).mp same
    omega
  · obtain ⟨_, atRow, atCol⟩ := (place_inj inArray (fits.lt_maxLRows rank inside)).mp same
    omega

variable (wide : AllWide dims gCols) (ready : Ready dims gRows gCols grid k memory)
include ready wide

/-- Where there is no cell of the mesh, a patch holds what it should see. -/
theorem Ready.beyond (inRows : row ≤ dims.rowsOf gRows rank + 1)
    (inCols : col ≤ dims.colsOf gCols rank + 1)
    (outside : ¬ Inside gRows gCols (dims.rowOffset gRows rank + row)
      (dims.colOffset gCols rank + col)) :
    memory rank (place (matrixAt k) row col) = dims.target gRows gCols grid k rank row col := by
  rw [Dims.target_outside outside]
  exact ready.dead rank row col (Nat.le_of_lt (fits rank).two_le) (wide rank) inRows inCols outside

/-- After the first phase, a patch sees the generation above and below it. -/
theorem Ready.sees_rows (inTime : 2 * k < 2 * calls) (inRows : row ≤ dims.rowsOf gRows rank + 1)
    (inCols : 1 ≤ col ∧ col ≤ dims.colsOf gCols rank) :
    (halo dims gRows gCols calls).exchange.arrived (2 * k) memory rank
      (place (matrixAt k) row col) = dims.target gRows gCols grid k rank row col := by
  have separate : (halo dims gRows gCols calls).exchange.Separate (2 * k) :=
    halo_separate fits wide (2 * k)
  have inHalo : col ≤ dims.colsOf gCols rank + 1 := Nat.le_succ_of_le inCols.2
  rcases Nat.eq_zero_or_pos row with rfl | below
  · rcases Nat.eq_zero_or_pos (dims.prow rank) with top | inner
    · rw [arrived_rows_kept fits inRows (.inl ⟨rfl, top⟩)]
      refine ready.beyond fits wide inRows inHalo ?_
      rw [Dims.rowOffset, top, offsetBefore, Nat.zero_mul]
      exact fun inside => absurd inside.1.1 (Nat.not_succ_le_zero 0)
    · obtain ⟨other, under⟩ := dims.exists_top inner
      have atLeast := (fits other).two_le
      rw [separate.arrived_eq (rows_transfers.mpr
        ⟨inTime, .inr ⟨under, col, inCols, rfl, rfl⟩⟩), ← Dims.target_below under k 0 col]
      refine ready.holds other _ col ⟨⟨by omega, Nat.le_refl _⟩, ?_⟩
      rwa [← dims.colsOf_eq gCols under]
  rcases Nat.lt_or_eq_of_le inRows with above | rfl
  · have interior : 1 ≤ row ∧ row ≤ dims.rowsOf gRows rank := ⟨below, Nat.lt_succ_iff.mp above⟩
    rw [arrived_rows_kept fits inRows (.inr (.inr (.inl interior)))]
    exact ready.holds rank row col ⟨interior, inCols⟩
  · rcases Nat.lt_or_eq_of_le (Nat.succ_le_of_lt (dims.prow_lt rank)) with inner | last
    · obtain ⟨other, under⟩ := dims.exists_bottom inner
      have atLeast := (fits other).two_le
      rw [separate.arrived_eq (rows_transfers.mpr
        ⟨inTime, .inl ⟨under, col, inCols, rfl, rfl⟩⟩), Dims.target_below under k 1 col]
      refine ready.holds other 1 col ⟨⟨Nat.le_refl 1, by omega⟩, ?_⟩
      rwa [dims.colsOf_eq gCols under]
    · rw [arrived_rows_kept fits inRows (.inr (.inl ⟨rfl, last⟩))]
      refine ready.beyond fits wide inRows inHalo fun inside => ?_
      have whole := offsetBefore_last gRows last
      have within : dims.rowOffset gRows rank + (dims.rowsOf gRows rank + 1) ≤ gRows := inside.1.2
      unfold Dims.rowOffset Dims.rowsOf at within
      omega

/-- After the second, it sees the generation all around, with the diagonals. -/
theorem Ready.sees (inTime : 2 * k + 1 < 2 * calls) :
    let exchange := (halo dims gRows gCols calls).exchange
    Sees dims gRows gCols grid k fun rank => arrayIn (matrixAt k)
      (exchange.arrived (2 * k + 1) (exchange.arrived (2 * k) memory) rank) := by
  intro exchange rank row inRows col inCols
  have separate : exchange.Separate (2 * k + 1) := halo_separate fits wide (2 * k + 1)
  have inTime' : 2 * k < 2 * calls := Nat.lt_of_succ_lt inTime
  have seen : ∀ {other col}, row ≤ dims.rowsOf gRows other + 1 →
      1 ≤ col ∧ col ≤ dims.colsOf gCols other →
      exchange.arrived (2 * k) memory other (place (matrixAt k) row col) =
        dims.target gRows gCols grid k other row col :=
    fun inRows inCols => ready.sees_rows fits wide inTime' inRows inCols
  change exchange.arrived (2 * k + 1) (exchange.arrived (2 * k) memory) rank
    (place (matrixAt k) row col) = _
  rcases Nat.eq_zero_or_pos col with rfl | after
  · rcases Nat.eq_zero_or_pos (dims.pcol rank) with first | inner
    · rw [arrived_cols_kept fits inRows (.inl ⟨rfl, first⟩),
        arrived_rows_kept fits inRows (.inr (.inr (.inr (.inl rfl))))]
      refine ready.beyond fits wide inRows inCols ?_
      rw [Dims.colOffset, first, offsetBefore, Nat.zero_mul]
      exact fun inside => absurd inside.2.1 (Nat.not_succ_le_zero 0)
    · obtain ⟨other, beside⟩ := dims.exists_left inner
      rw [separate.arrived_eq (cols_transfers.mpr ⟨inTime, .inr ⟨beside, row, inRows, rfl, rfl⟩⟩),
        ← Dims.target_right beside k row 0]
      refine seen ?_ ⟨wide other, Nat.le_refl _⟩
      rwa [← dims.rowsOf_eq gRows beside]
  rcases Nat.lt_or_eq_of_le inCols with before | rfl
  · have interior : 1 ≤ col ∧ col ≤ dims.colsOf gCols rank := ⟨after, Nat.lt_succ_iff.mp before⟩
    rw [arrived_cols_kept fits inRows (.inr (.inr interior))]
    exact seen inRows interior
  · rcases Nat.lt_or_eq_of_le (Nat.succ_le_of_lt (dims.pcol_lt rank)) with inner | last
    · obtain ⟨other, beside⟩ := dims.exists_right inner
      rw [separate.arrived_eq (cols_transfers.mpr ⟨inTime, .inl ⟨beside, row, inRows, rfl, rfl⟩⟩),
        Dims.target_right beside k row 1]
      refine seen ?_ ⟨Nat.le_refl 1, wide other⟩
      rwa [dims.rowsOf_eq gRows beside]
    · rw [arrived_cols_kept fits inRows (.inr (.inl ⟨rfl, last⟩)),
        arrived_rows_kept fits inRows (.inr (.inr (.inr (.inr rfl))))]
      refine ready.beyond fits wide inRows inCols fun inside => ?_
      have whole := offsetBefore_last gCols last
      have within : dims.colOffset gCols rank + (dims.colsOf gCols rank + 1) ≤ gCols := inside.2.2
      unfold Dims.colOffset Dims.colsOf at within
      omega

/-- A call does what every exchange does in step. -/
theorem Ready.arrived_eq_run (inTime : 2 * k + 1 < 2 * calls) (call : Exchange dims gRows gCols)
    (inRows : row ≤ dims.rowsOf gRows rank + 1) (inCols : col ≤ dims.colsOf gCols rank + 1) :
    let exchange := (halo dims gRows gCols calls).exchange
    arrayIn (matrixAt k) (exchange.arrived (2 * k + 1) (exchange.arrived (2 * k) memory) rank)
        row col =
      call.run (fun rank => arrayIn (matrixAt k) (memory rank)) rank row col := by
  intro exchange
  have rows : 1 ≤ dims.rowsOf gRows rank := Nat.le_of_lt (fits rank).two_le
  have cols : 1 ≤ dims.colsOf gCols rank := wide rank
  rw [exchange_sees ready.holds rows cols inRows inCols
    (ready.dead rank row col rows cols inRows inCols)]
  exact ready.sees fits wide inTime rank row inRows col inCols

end Call

/-- A call leaves the other array. -/
theorem arrived_other {phase : ℕ} {buffer : Buffer} (other : buffer ≠ matrixAt (phase / 2))
    (row col : ℕ) :
    (halo dims gRows gCols calls).exchange.arrived phase memory rank (place buffer row col) =
      memory rank (place buffer row col) := by
  refine Exchange.arrived_of_kept fun source origin moves => ?_
  rcases Nat.mod_two_eq_zero_or_one phase with even | odd
  · have same : 2 * (phase / 2) = phase := by omega
    rw [← same] at moves
    obtain ⟨_, ⟨_, _, _, _, equal⟩ | ⟨_, _, _, _, equal⟩⟩ := rows_transfers.mp moves
    · exact other (Prod.mk.inj equal).1
    · exact other (Prod.mk.inj equal).1
  · have same : 2 * (phase / 2) + 1 = phase := by omega
    rw [← same] at moves
    obtain ⟨_, ⟨_, _, _, _, equal⟩ | ⟨_, _, _, _, equal⟩⟩ := cols_transfers.mp moves
    · exact other (Prod.mk.inj equal).1
    · exact other (Prod.mk.inj equal).1

/-! ### One generation -/

/-- The loops of a process succeed, and calculate the next state of its interior into the other
array. -/
theorem calculateIn_gives (fits : AllFit dims gRows gCols) (k : ℕ) (rank : Fin nprocs) (mem : Mem) :
    Gives (fromOne.fill 2 (dims.rowsOf gRows rank + 1) 2 (dims.colsOf gCols rank + 1)
      (mlifeNextstate (arrayIn (matrixAt k) mem)) (arrayIn (tempAt k) mem)) fun array =>
      calculateIn dims gRows gCols k rank mem = setArray (tempAt k) array mem ∧
        ∀ row col, array row col =
          if Inside (dims.rowsOf gRows rank) (dims.colsOf gCols rank) row col then
            nextstate (arrayIn (matrixAt k) mem) row col
          else arrayIn (tempAt k) mem row col := by
  obtain ⟨array, filled, calculated⟩ := sweep_gives (fits rank).rows_le (fits rank).cols_le
  refine ⟨array, filled, ?_, calculated⟩
  unfold calculateIn
  dsimp only [Dims.meshDecomp]
  split
  · next found =>
      cases filled.symm.trans found
      rfl
  · next found => cases filled.symm.trans found

theorem place_mod {row : ℕ} (inRows : row < maxLRows) (col : ℕ) :
    (col * maxLRows + row) % maxLRows = row := by
  rw [Nat.add_comm, Nat.add_mul_mod_self_right, Nat.mod_eq_of_lt inRows]

theorem place_div {row : ℕ} (inRows : row < maxLRows) (col : ℕ) :
    (col * maxLRows + row) / maxLRows = col := by
  rw [Nat.add_comm, Nat.add_mul_div_right _ _ (show 0 < maxLRows by decide),
    Nat.div_eq_of_lt inRows, Nat.zero_add]

theorem setArray_place {buffer buffer' : Buffer} {array : Array2} {mem : Mem} {row col : ℕ}
    (inRows : row < maxLRows) :
    setArray buffer array mem (place buffer' row col) =
      if buffer' = buffer then array row col else mem (place buffer' row col) := by
  simp only [setArray, place, place_mod inRows, place_div inRows]

/-- What one process holds after the loops. -/
theorem calculateIn_place (fits : AllFit dims gRows gCols) (mem : Mem) {buffer : Buffer}
    {row col : ℕ} (inRows : row ≤ dims.rowsOf gRows rank + 1) :
    calculateIn dims gRows gCols k rank mem (place buffer row col) =
      if buffer = tempAt k ∧ Inside (dims.rowsOf gRows rank) (dims.colsOf gCols rank) row col then
        nextstate (arrayIn (matrixAt k) mem) row col
      else mem (place buffer row col) := by
  obtain ⟨array, _, stored, calculated⟩ := calculateIn_gives fits k rank mem
  rw [stored, setArray_place (fits.lt_maxLRows rank inRows), ite_and]
  split
  · next same =>
      subst same
      exact calculated row col
  · rfl

theorem tempAt_succ (k : ℕ) : tempAt (k + 1) = matrixAt k := by
  rw [tempAt, matrixAt]
  cases matrixAt k <;> rfl

/-- A call and the loops after it make the next generation. -/
theorem Ready.next (fits : AllFit dims gRows gCols) (wide : AllWide dims gCols)
    (ready : Ready dims gRows gCols grid k memory) (inTime : 2 * k + 1 < 2 * calls) :
    let exchange := (halo dims gRows gCols calls).exchange
    Ready dims gRows gCols grid (k + 1) fun rank => calculateIn dims gRows gCols k rank
      (exchange.arrived (2 * k + 1) (exchange.arrived (2 * k) memory) rank) := by
  intro exchange
  have seen := ready.sees fits wide inTime
  refine ⟨fun rank row col inside => ?_, fun rank row col rows cols inRows inCols outside => ?_,
    fun rank row col rows cols inRows inCols outside => ?_⟩
  · obtain ⟨⟨firstRow, lastRow⟩, firstCol, lastCol⟩ := id inside
    refine (calculateIn_place fits _ (Nat.le_succ_of_le lastRow)).trans ?_
    rw [if_pos ⟨rfl, inside⟩]
    exact nextstate_generation firstRow firstCol (Dims.inside_mesh inside)
      fun i j _ below _ beside => seen rank i (by omega) j (by omega)
  · refine (calculateIn_place fits _ inRows).trans ?_
    rw [if_neg fun interior => outside (Dims.inside_mesh interior.2)]
    have away : ∀ phase, phase / 2 = k → matrixAt (k + 1) ≠ matrixAt (phase / 2) := by
      rintro phase rfl
      exact (matrixAt (phase / 2)).swap_ne
    refine (arrived_other (away (2 * k + 1) (by omega)) row col).trans ?_
    refine (arrived_other (away (2 * k) (by omega)) row col).trans ?_
    exact ready.dead2 rank row col rows cols inRows inCols outside
  · refine (calculateIn_place fits _ inRows).trans ?_
    rw [if_neg fun interior => outside (Dims.inside_mesh interior.2), tempAt_succ]
    refine (seen rank row inRows col inCols).trans (Dims.target_outside outside k)

/-! ### Every run -/

theorem update_even (k : ℕ) (rank : Fin nprocs) : update dims gRows gCols (2 * k) rank = id :=
  if_pos (Nat.mul_mod_right 2 k)

theorem update_odd (k : ℕ) (rank : Fin nprocs) :
    update dims gRows gCols (2 * k + 1) rank = calculateIn dims gRows gCols k rank := by
  have half : (2 * k + 1) / 2 = k := by omega
  rw [update, if_neg (by omega), half]

/-- The memories in step, before the second phase of a call. -/
theorem inStep_odd (k : ℕ) :
    (halo dims gRows gCols calls).exchange.inStep memory (2 * k + 1) =
      (halo dims gRows gCols calls).exchange.arrived (2 * k)
        ((halo dims gRows gCols calls).exchange.inStep memory (2 * k)) := by
  rw [Exchange.inStep]
  ext rank address
  change update dims gRows gCols (2 * k) rank _ address = _
  rw [update_even]
  rfl

/-- The memories in step, before the next call. -/
theorem inStep_succ (k : ℕ) :
    (halo dims gRows gCols calls).exchange.inStep memory (2 * (k + 1)) =
      fun rank => calculateIn dims gRows gCols k rank
        ((halo dims gRows gCols calls).exchange.arrived (2 * k + 1)
          ((halo dims gRows gCols calls).exchange.arrived (2 * k)
            ((halo dims gRows gCols calls).exchange.inStep memory (2 * k))) rank) := by
  rw [Nat.mul_succ, Exchange.inStep, inStep_odd]
  ext rank address
  change update dims gRows gCols (2 * k + 1) rank _ address = _
  rw [update_odd]

theorem ready_inStep (fits : AllFit dims gRows gCols) (wide : AllWide dims gCols)
    (ready : Ready dims gRows gCols grid 0 memory) (inTime : k ≤ calls) :
    Ready dims gRows gCols grid k
      ((halo dims gRows gCols calls).exchange.inStep memory (2 * k)) := by
  induction k with
  | zero => exact ready
  | succ k ih =>
      have next := (ih (Nat.le_of_succ_le inTime)).next fits wide
        (show 2 * k + 1 < 2 * calls by omega)
      rw [inStep_succ]
      exact next

/-- The arrays of a process in its memory. -/
def Arrays.stored (arrays : Arrays) : Mem := fun address =>
  match address.1 with
  | .mdata => arrays.matrix (address.2 % maxLRows) (address.2 / maxLRows)
  | .tdata => arrays.matrix2 (address.2 % maxLRows) (address.2 / maxLRows)

/-- The number of calls in the loop of `life`. -/
def callsOf (ntimes : ℕ) : ℕ := 2 * tripCount 1 ntimes 2

/-- The two versions of `MLIFE_exchange`. -/
inductive Version where
  | pt2pt
  | fence

namespace Version

/-- The loop of `life`, from `start` on: call `k` of `MLIFE_exchange` may return on `rank` with
`mem`. -/
def Returns (version : Version) (dims : Dims nprocs) (gRows gCols ntimes : ℕ)
    (start : Fin nprocs → Arrays) (rank : Fin nprocs) (k : ℕ) (mem : Mem) : Prop :=
  match version with
  | .pt2pt => (Fortran.pt2pt dims gRows gCols (callsOf ntimes)).Completes
      (· = fun rank => (start rank).stored) rank (2 * k + 1) mem
  | .fence => (Fortran.fence dims gRows gCols (callsOf ntimes)).Completes
      (· = fun rank => (start rank).stored) rank (2 * k + 1) mem

/-- While a process has calls left, some step can be taken. -/
def Progresses (version : Version) (dims : Dims nprocs) (gRows gCols ntimes : ℕ)
    (start : Fin nprocs → Arrays) : Prop :=
  match version with
  | .pt2pt => ((Fortran.pt2pt dims gRows gCols (callsOf ntimes)).system
      (· = fun rank => (start rank).stored)).NeverStuck
        fun state => ∃ rank, state.phase rank < 2 * callsOf ntimes
  | .fence => ((Fortran.fence dims gRows gCols (callsOf ntimes)).system
      (· = fun rank => (start rank).stored)).NeverStuck
        fun state => ∃ rank, state.phase rank < 2 * callsOf ntimes

end Version

variable {version : Version} {ntimes : ℕ} {start : Fin nprocs → Arrays} {mem : Mem}

theorem pt2pt_matched : (pt2pt dims gRows gCols calls).Matched := by
  rw [pt2pt_eq]
  exact Halo.pt2pt_matched halo_sized

theorem Version.progresses : version.Progresses dims gRows gCols ntimes start := by
  cases version with
  | pt2pt => exact PointToPoint.Program.progress pt2pt_matched _
  | fence => exact OneSided.Program.progress (fence_matched dims gRows gCols _) _

theorem Version.Returns.halo (returns : version.Returns dims gRows gCols ntimes start rank k mem) :
    2 * k + 1 < 2 * callsOf ntimes ∧
      (Fortran.halo dims gRows gCols (callsOf ntimes)).exchange.Completes
        (· = fun rank => (start rank).stored) rank (2 * k + 1) mem := by
  cases version with
  | pt2pt =>
      rw [← Halo.pt2pt_exchange, ← pt2pt_eq]
      exact PointToPoint.Program.Completes.exchange returns pt2pt_matched
  | fence =>
      rw [← fence_exchange]
      exact OneSided.Program.Completes.exchange returns (fence_matched dims gRows gCols _)

/-- A loop without iterations makes no call. -/
theorem Version.Returns.entered
    (returns : version.Returns dims gRows gCols ntimes start rank k mem) : 0 < ntimes := by
  have inTime := returns.halo.1
  rw [callsOf, tripCount_two] at inTime
  omega

theorem stored_place {arrays : Arrays} {row col : ℕ} (inRows : row < maxLRows) :
    arrays.stored (place .mdata row col) = arrays.matrix row col ∧
      arrays.stored (place .tdata row col) = arrays.matrix2 row col := by
  simp only [Arrays.stored, place, place_mod inRows, place_div inRows, and_self]

/-- The initial arrays are ready for the first call. -/
theorem AllInitial.ready (initial : AllInitial dims gRows gCols start)
    (fits : AllFit dims gRows gCols) (tall : TallTop dims gRows gCols)
    (holds : Holds dims gRows gCols grid 0 fun rank => (start rank).matrix) :
    Ready dims gRows gCols grid 0 fun rank => (start rank).stored where
  holds rank row col inside :=
    (stored_place (fits.lt_maxLRows rank (Nat.le_succ_of_le inside.1.2))).1.trans
      (holds rank row col inside)
  dead rank row col rows cols inRows inCols outside :=
    (stored_place (fits.lt_maxLRows rank inRows)).1.trans
      (initial.dead tall rank row col rows cols inRows inCols outside)
  dead2 rank row col rows cols inRows inCols outside :=
    (stored_place (fits.lt_maxLRows rank inRows)).2.trans
      (initial.dead2 rank row col rows cols inRows inCols outside)

/-- Whatever the order of the messages or puts, every process returns from a call with the
current generation around its patch. -/
theorem Version.Returns.sees (fits : AllFit dims gRows gCols) (wide : AllWide dims gCols)
    (ready : Ready dims gRows gCols grid 0 fun rank => (start rank).stored)
    {memory : Fin nprocs → Mem}
    (returns : ∀ rank, version.Returns dims gRows gCols ntimes start rank k (memory rank)) :
    Sees dims gRows gCols grid k fun rank => arrayIn (matrixAt k) (memory rank) := by
  intro rank
  obtain ⟨inTime, completes⟩ := (returns rank).halo
  have inStep := Exchange.eq_arrived_of_completes (halo_separate fits wide) completes
  rw [inStep_odd] at inStep
  change ∀ row ≤ _, ∀ col ≤ _, arrayIn (matrixAt k) (memory rank) row col = _
  rw [inStep]
  exact (ready_inStep fits wide ready (by omega)).sees fits wide inTime rank

/-- Every run of `life` with its exchanges makes the generations of a grid that the initial arrays
hold: it never gets stuck, each call of `MLIFE_exchange` returns with the current generation in
and around every patch, and the loops after it calculate the next. -/
theorem mlife2df_eq_serial (version : Version) (dims : Dims nprocs) (gRows gCols ntimes : ℕ)
    (rand : Int → Int → Bool) (memory : Fin nprocs → Arrays) (fits : AllFit dims gRows gCols)
    (wide : AllWide dims gCols) (tall : 0 < ntimes → TallTop dims gRows gCols) :
    ∃ start grid, initialArrays dims gRows gCols rand memory = .ok start ∧
      Holds dims gRows gCols grid 0 (fun rank => (start rank).matrix) ∧
      version.Progresses dims gRows gCols ntimes start ∧
      ∀ (k : ℕ) (mem : Fin nprocs → Mem),
        (∀ rank, version.Returns dims gRows gCols ntimes start rank k (mem rank)) →
        Sees dims gRows gCols grid k (fun rank => arrayIn (matrixAt k) (mem rank)) ∧
        Gives (calculate dims gRows gCols (fun rank => arrayIn (matrixAt k) (mem rank))
          fun rank => arrayIn (tempAt k) (mem rank)) (Holds dims gRows gCols grid (k + 1)) := by
  obtain ⟨start, initialised, initial⟩ := initialArrays_gives rand memory fits
  obtain ⟨grid, holds⟩ := initial.exists_holds
  refine ⟨start, grid, initialised, holds, Version.progresses, fun k mem returns => ?_⟩
  have seen : Sees dims gRows gCols grid k fun rank => arrayIn (matrixAt k) (mem rank) := by
    intro rank
    have entered : 0 < ntimes := (returns rank).entered
    exact Version.Returns.sees fits wide (initial.ready fits (tall entered) holds) returns rank
  refine ⟨seen, (calculate_gives fits).imp fun after calculated rank row col inside => ?_⟩
  obtain ⟨⟨firstRow, lastRow⟩, firstCol, lastCol⟩ := id inside
  rw [calculated, if_pos inside]
  exact nextstate_generation firstRow firstCol (Dims.inside_mesh inside)
    fun i j _ below _ beside => seen rank i (by omega) j (by omega)

/-! Two processes side by side, with a column of three rows each, return from both calls of the
loop. -/

private def sideBySide (nprocs : ℕ) : Dims nprocs := ⟨1, nprocs, Nat.one_mul nprocs⟩

private def pair : Dims 2 := sideBySide 2

private def firstRank : Fin 2 := ⟨0, Nat.two_pos⟩

private def lastRank : Fin 2 := ⟨1, Nat.one_lt_two⟩

private def pairMemory (_ : Fin 2) : Arrays := ⟨fun _ _ => 7, fun _ _ => 7⟩

private def pairStart : Fin 2 → Arrays :=
  (initialArrays pair 3 2 (fun _ _ => false) pairMemory).toOption.getD pairMemory

/-- There are no neighbours in the first phase; in the second each process puts five elements. -/
private def pairActions (k : ℕ) : List (OneSided.Action Buffer (Fin 2)) :=
  let column (act : ℕ → OneSided.Action Buffer (Fin 2)) := (List.range 5).map act
  List.replicate 10 (.call lastRank) ++ List.replicate 10 (.call firstRank) ++
    column (.read (matrixAt k) firstRank lastRank 0) ++
    column (.store (matrixAt k) firstRank lastRank 0) ++
    column (.read (matrixAt k) lastRank firstRank 0) ++ [.call firstRank] ++
    column (.store (matrixAt k) lastRank firstRank 0) ++ [.call lastRank]

/-- The first calls return before the second ones begin. -/
private def callActions : List (OneSided.Action Buffer (Fin 2)) :=
  pairActions 0 ++ [.call firstRank, .call lastRank] ++ pairActions 1

private def pairRun := (System.exec (OneSided.step (fence pair 3 2 2))
  (OneSided.start fun rank => (pairStart rank).stored) callActions).get (by decide +kernel)

private theorem pairRun_exec : System.exec (OneSided.step (fence pair 3 2 2))
    (OneSided.start fun rank => (pairStart rank).stored) callActions =
      some (pairRun.1, pairRun.2) := by
  rw [Prod.mk.eta]
  exact (Option.some_get _).symm

private theorem pairRun_returns (rank : Fin 2) :
    Version.Returns .fence pair 3 2 1 pairStart rank 1 (pairRun.2.mem rank) := by
  have waits : ∀ rank, pairRun.2.phase rank = 3 ∧ (pairRun.2.stage rank).completed = true ∧
      (OneSided.call (fence pair 3 2 2) pairRun.2 rank).isSome = true := by decide +kernel
  obtain ⟨phase, stage, enabled⟩ := waits rank
  obtain ⟨next, returned⟩ := Option.isSome_iff_exists.mp enabled
  have two : callsOf 1 = 2 := by decide
  rw [Version.Returns, two]
  refine ⟨pairRun.2, next, System.reachable_of_exec ⟨_, rfl, rfl⟩ pairRun_exec, phase, rfl, ?_,
    returned⟩
  cases here : pairRun.2.stage rank with
  | wait => rfl
  | _ => rw [here] at stage; cases stage

theorem mlife2df_eq_serial_pair :
    ∃ start grid, initialArrays pair 3 2 (fun _ _ => false) pairMemory = .ok start ∧
      Version.Progresses .fence pair 3 2 1 start ∧ ∃ mem : Fin 2 → Mem,
        (∀ rank, Version.Returns .fence pair 3 2 1 start rank 1 (mem rank)) ∧
        Gives (calculate pair 3 2 (fun rank => arrayIn .tdata (mem rank))
          fun rank => arrayIn .mdata (mem rank)) (Holds pair 3 2 grid 2) := by
  obtain ⟨start, grid, initialised, _, progresses, generations⟩ :=
    mlife2df_eq_serial .fence pair 3 2 1 (fun _ _ => false) pairMemory
      (Fin.forall_fin_two.mpr
        ⟨⟨by decide, by decide, by decide⟩, ⟨by decide, by decide, by decide⟩⟩)
      (by unfold AllWide; decide) (fun _ => by unfold TallTop; decide)
  obtain rfl : pairStart = start := by rw [pairStart, initialised]; rfl
  exact ⟨pairStart, grid, initialised, progresses, _, pairRun_returns,
    (generations 1 _ pairRun_returns).2⟩

end HandsOn.Life.Fortran
