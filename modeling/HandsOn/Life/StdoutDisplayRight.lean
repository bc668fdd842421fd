import Mathlib.Data.List.GetD
import HandsOn.Mpi.Fifo
import HandsOn.Life.StdoutDisplay

/-!
# When the display of the mesh is right

Nothing but the halo exchange holds a rank back, and it only ties a rank to its neighbours:
a rank two patches away may send row `r` of the next iteration before another has sent row
`r` of this one, and rank 0 takes it for a contribution to this one. `strip_wrong` is such a
run. In a run where this never happens, every printed line is right: from each rank the
messages for a row arrive one an iteration, in the order of the iterations.
-/

namespace HandsOn.Life.StdoutDisplay

open HandsOn.Mpi HandsOn.Semantics

variable {nprocs : ℕ} {dims : Dims nprocs} {root : Fin nprocs} {gRows gCols ntimes : ℕ}
  {grid : Grid}

/-! ### A line and its contributions -/

/-- What `source` sends for a row in iteration `k`. -/
def message (dims : Dims nprocs) (gRows gCols : ℕ) (grid : Grid) (source : Fin nprocs)
    (row k : ℕ) : Buf :=
  let patch := dims.meshDecomp gRows gCols source
  { firstCol := patch.gFirstCol
    cells := (List.range patch.lCols).map fun j =>
      cell (grid.generation gRows gCols (k + 1) row (patch.gFirstCol + j)) }

theorem add_cbuf (line : Line nprocs) (source : Fin nprocs) (buf : Buf) (i : ℕ) :
    (line.add source buf).cbuf i =
      if buf.firstCol - 1 ≤ i ∧ i < buf.firstCol - 1 + buf.cells.length then
        mark (buf.cells.getD (i - (buf.firstCol - 1)) 0)
      else line.cbuf i := by
  refine forLoop_counts (P := fun count (cbuf : ℕ → Char) => cbuf i =
    if buf.firstCol - 1 ≤ i ∧ i < buf.firstCol - 1 + count then
      mark (buf.cells.getD (i - (buf.firstCol - 1)) 0)
    else line.cbuf i) (Nat.zero_le _) (if_neg (by omega)).symm ?_
  intro j cbuf _ _ so
  obtain rfl | different := eq_or_ne i (buf.firstCol - 1 + j)
  · rw [Function.update_self, if_pos (by omega), Nat.add_sub_cancel_left]
  · rw [Function.update_of_ne different, so]
    exact if_congr (by omega) rfl rfl

theorem gFirstCol_pos (rank : Fin nprocs) : 1 ≤ (dims.meshDecomp gRows gCols rank).gFirstCol :=
  Nat.le_add_right 1 _

theorem gFirstRow_pos (rank : Fin nprocs) : 1 ≤ (dims.meshDecomp gRows gCols rank).gFirstRow :=
  Nat.le_add_right 1 _

/-- A contribution puts its row's cells where they belong. -/
theorem add_message (line : Line nprocs) (source : Fin nprocs) (row k : ℕ) {col : ℕ}
    (first : 1 ≤ col) :
    let patch := dims.meshDecomp gRows gCols source
    (line.add source (message dims gRows gCols grid source row k)).cbuf (col - 1) =
      if patch.gFirstCol ≤ col ∧ col < patch.gFirstCol + patch.lCols then
        mark (cell (grid.generation gRows gCols (k + 1) row col))
      else line.cbuf (col - 1) := by
  intro patch
  have start : 1 ≤ patch.gFirstCol := gFirstCol_pos source
  have width : (message dims gRows gCols grid source row k).cells.length = patch.lCols := by
    simp [message, patch]
  rw [add_cbuf, width]
  change (if patch.gFirstCol - 1 ≤ _ ∧ _ < patch.gFirstCol - 1 + _ then _ else _) = _
  by_cases inside : patch.gFirstCol ≤ col ∧ col < patch.gFirstCol + patch.lCols
  · rw [if_pos inside, if_pos (by omega)]
    refine congrArg mark ?_
    have found : col - 1 - (patch.gFirstCol - 1) < patch.lCols := by omega
    change ((List.range patch.lCols).map _).getD (col - 1 - (patch.gFirstCol - 1)) 0 = _
    rw [List.getD_eq_getElem _ _ (by simpa using found), List.getElem_map, List.getElem_range]
    change cell (grid.generation _ _ _ _ (patch.gFirstCol + _)) = _
    rw [show patch.gFirstCol + (col - 1 - (patch.gFirstCol - 1)) = col by omega]
  · rw [if_neg inside, if_neg (by omega)]

/-- The line holds the row after iteration `k` wherever its ranks have patches. -/
structure Shows (dims : Dims nprocs) (gRows gCols : ℕ) (grid : Grid) (line : Line nprocs)
    (row k : ℕ) : Prop where
  once : line.sources.Nodup
  owners : ∀ source ∈ line.sources, Owns dims gRows gCols source row
  cells : ∀ source ∈ line.sources, ∀ col,
    let patch := dims.meshDecomp gRows gCols source
    patch.gFirstCol ≤ col → col < patch.gFirstCol + patch.lCols →
    line.cbuf (col - 1) = mark (cell (grid.generation gRows gCols (k + 1) row col))

theorem Shows.add {line : Line nprocs} {source : Fin nprocs} {row k : ℕ}
    (so : Shows dims gRows gCols grid line row k)
    (owner : Owns dims gRows gCols source row) (fresh : source ∉ line.sources) :
    Shows dims gRows gCols grid
      (line.add source (message dims gRows gCols grid source row k)) row k where
  once := by
    have once := so.once.concat fresh
    rwa [List.concat_eq_append] at once
  owners other listed := by
    rcases List.mem_append.mp listed with earlier | last
    · exact so.owners other earlier
    · exact List.mem_singleton.mp last ▸ owner
  cells other listed col := by
    intro patch starts ends
    rw [add_message _ _ _ _ ((gFirstCol_pos other).trans starts)]
    split
    · rfl
    · next outside =>
        rcases List.mem_append.mp listed with earlier | last
        · exact so.cells other earlier col starts ends
        · obtain rfl := List.mem_singleton.mp last
          exact absurd ⟨starts, ends⟩ outside

theorem Owns.le_gRows {rank : Fin nprocs} {row : ℕ} (owner : Owns dims gRows gCols rank row) :
    row ≤ gRows := by
  obtain ⟨_, ends⟩ := owner
  have within := offsetBefore_add_le gRows (dims.prow_lt rank)
  change row < firstOf gRows dims.prows _ + lengthOf gRows dims.prows _ at ends
  rw [firstOf_eq] at ends
  omega

/-- The owners of one row differ in their columns of the process grid. -/
theorem owner_ext {first second : Fin nprocs} {row : ℕ}
    (owner : Owns dims gRows gCols first row) (owner' : Owns dims gRows gCols second row)
    (same : dims.pcol first = dims.pcol second) : first = second :=
  dims.rank_ext (part_unique (dims.prow_lt first) (dims.prow_lt second) owner.1 owner.2
    owner'.1 owner'.2) same

/-- As many different owners as the process grid has columns are all of them. -/
theorem Shows.exists_source {line : Line nprocs} {row k : ℕ}
    (so : Shows dims gRows gCols grid line row k)
    (full : ¬ line.sources.length < dims.pcols) {pcol : ℕ} (inside : pcol < dims.pcols) :
    ∃ source ∈ line.sources, dims.pcol source = pcol := by
  have distinct : (line.sources.map dims.pcol).Nodup :=
    List.Nodup.map_on (fun first listed second listed' same =>
      owner_ext (so.owners first listed) (so.owners second listed') same) so.once
  have within : line.sources.map dims.pcol ⊆ List.range dims.pcols := by
    intro pcol listed
    obtain ⟨source, _, rfl⟩ := List.mem_map.mp listed
    exact List.mem_range.mpr (dims.pcol_lt source)
  have all := (List.subperm_of_subset distinct within).perm_of_length_le (by
    rw [List.length_map, List.length_range]
    exact Nat.le_of_not_lt full)
  exact List.mem_map.mp (all.mem_iff.mpr (List.mem_range.mpr inside))

/-- A line with all its contributions is right. -/
theorem Shows.right {line : Line nprocs} {row k : ℕ}
    (so : Shows dims gRows gCols grid line row k)
    (full : ¬ line.sources.length < dims.pcols) (positive : 0 < dims.pcols) :
    Right dims gRows gCols grid ⟨k, row, (List.range gCols).map line.cbuf, line.sources⟩ where
  text := by
    refine List.map_congr_left fun col listed => ?_
    obtain ⟨pcol, inside, starts, ends⟩ := exists_part positive (Nat.le_add_left 1 col)
      (Nat.succ_le_of_lt (List.mem_range.mp listed))
    obtain ⟨source, member, rfl⟩ := so.exists_source full inside
    exact so.cells source member (col + 1) starts ends
  once := so.once
  owners rank := by
    refine ⟨so.owners rank, fun owner => ?_⟩
    obtain ⟨source, member, same⟩ := so.exists_source full (dims.pcol_lt rank)
    exact owner_ext (so.owners source member) owner same ▸ member

/-! ### Messages under way -/

/-- The messages under way from `source` for a row are those of the iterations from `first`
on, before `next`. -/
structure UnderWay (dims : Dims nprocs) (gRows gCols : ℕ) (grid : Grid) (channel : List Buf)
    (source : Fin nprocs) (row first next : ℕ) : Prop where
  ordered : first ≤ next
  channel : channel =
    (List.range' first (next - first)).map (message dims gRows gCols grid source row)

namespace UnderWay

variable {channel rest : List Buf} {buf : Buf} {source : Fin nprocs} {row first next : ℕ}

/-- The messages for a row do not overtake each other. -/
theorem iff_fifo : UnderWay dims gRows gCols grid channel source row first next ↔
    Mpi.UnderWay (message dims gRows gCols grid source row) channel first next :=
  ⟨fun underWay => ⟨underWay.ordered, underWay.channel⟩,
    fun underWay => ⟨underWay.ordered, underWay.channel⟩⟩

theorem push (underWay : UnderWay dims gRows gCols grid channel source row first next) :
    UnderWay dims gRows gCols grid (channel ++ [message dims gRows gCols grid source row next])
      source row first (next + 1) :=
  iff_fifo.mpr (iff_fifo.mp underWay).push

theorem pop (underWay : UnderWay dims gRows gCols grid (buf :: rest) source row first next) :
    buf = message dims gRows gCols grid source row first ∧
      UnderWay dims gRows gCols grid rest source row (first + 1) next :=
  (iff_fifo.mp underWay).pop.imp_right iff_fifo.mpr

end UnderWay

/-- How many messages for a row rank 0 has received from `source`. -/
def State.received (state : State nprocs) (root source : Fin nprocs) (row : ℕ) : ℕ :=
  state.iter root + if row < state.row ∨ row = state.row ∧ source ∈ state.sources then 1 else 0

/-- How many messages for a row of its patch `source` has sent. -/
def State.sent (state : State nprocs) (dims : Dims nprocs) (gRows gCols : ℕ)
    (source : Fin nprocs) (row : ℕ) : ℕ :=
  state.iter source +
    if row < (dims.meshDecomp gRows gCols source).gFirstRow + state.sentRows source then 1 else 0

/-- The messages sent and not received are under way, and what is shown is right. -/
structure Sound (dims : Dims nprocs) (root : Fin nprocs) (gRows gCols ntimes : ℕ) (grid : Grid)
    (state : State nprocs) : Prop where
  exchange : ((dims.pt2pt gRows gCols ntimes).system
    (dims.InitialPatches gRows gCols grid)).Reachable state.exchange
  underWay : ∀ source row, source ≠ root → Owns dims gRows gCols source row →
    UnderWay dims gRows gCols grid (state.channel source row) source row
      (state.received root source row) (state.sent dims gRows gCols source row)
  unused : ∀ source row, ¬ (source ≠ root ∧ Owns dims gRows gCols source row) →
    state.channel source row = []
  line : ∀ line, state.line = some line →
    Shows dims gRows gCols grid line state.row (state.iter root)
  printed : ∀ printed ∈ state.printed, Right dims gRows gCols grid printed

/-- In its checkpoint, a rank's `matrix` holds its patch after the iteration. -/
theorem rowBuf_eq {state : State nprocs} {rank : Fin nprocs}
    (reachable : ((dims.pt2pt gRows gCols ntimes).system
      (dims.InitialPatches gRows gCols grid)).Reachable state.exchange)
    (inCheckpoint : state.InCheckpoint rank) {i : ℕ} (first : 1 ≤ i)
    (last : i ≤ (dims.meshDecomp gRows gCols rank).lRows) :
    rowBuf dims gRows gCols state rank i = message dims gRows gCols grid rank
      (i + (dims.meshDecomp gRows gCols rank).gFirstRow - 1) (state.iter rank) := by
  have reaches : MeshExchange.pt2pt.Reaches dims gRows gCols ntimes grid rank
      (state.iter rank + 1) (state.exchange.mem rank) :=
    ⟨2 * (state.iter rank + 1), Nat.mul_div_cancel_left _ Nat.zero_lt_two, state.exchange,
      reachable, inCheckpoint, rfl⟩
  refine congrArg (Buf.mk _) (List.map_congr_left fun j listed => ?_)
  have inside : Inside (dims.rowsOf gRows rank) (dims.colsOf gCols rank) i (j + 1) :=
    ⟨⟨first, last⟩, Nat.le_add_left 1 j, List.mem_range.mp listed⟩
  refine (reaches.view_eq inside).trans (congrArg cell
    (congrArg₂ (grid.generation gRows gCols _) (dims.rowOffset_add gRows gCols rank i) ?_))
  rw [dims.colOffset_add gRows gCols]
  omega

namespace Sound

variable {state next : State nprocs} {rank source : Fin nprocs}

theorem start {mem : Fin nprocs → Mem} (initial : dims.InitialPatches gRows gCols grid mem) :
    Sound dims root gRows gCols ntimes grid (start dims gRows gCols ntimes mem) where
  exchange := .initial ⟨mem, initial, rfl⟩
  underWay source row _ owner := by
    have none : ¬ row < 1 := Nat.not_lt.mpr ((gFirstRow_pos source).trans owner.1)
    have unsent : ¬ row < (dims.meshDecomp gRows gCols source).gFirstRow + 0 :=
      Nat.not_lt.mpr owner.1
    constructor <;> simp [State.received, State.sent, State.sources, StdoutDisplay.start,
      owner.1, none]
  unused _ _ _ := rfl
  line _ none := by cases none
  printed _ listed := by cases listed

/-- The last row is the only one that a send counts for. -/
theorem sent_send (state : State nprocs) (rank source : Fin nprocs) (row : ℕ) :
    (state.send dims gRows gCols rank).sent dims gRows gCols source row =
      state.sent dims gRows gCols source row +
        if source = rank ∧
            row = (dims.meshDecomp gRows gCols rank).gFirstRow + state.sentRows rank
          then 1 else 0 := by
  unfold State.sent State.send
  obtain rfl | different := eq_or_ne source rank
  · simp only [Function.update_self, true_and]
    split_ifs <;> omega
  · simp only [Function.update_of_ne different, different, false_and, if_false, Nat.add_zero]

theorem send (sound : Sound dims root gRows gCols ntimes grid state) (notRoot : rank ≠ root)
    (inCheckpoint : state.InCheckpoint rank)
    (left : state.sentRows rank < (dims.meshDecomp gRows gCols rank).lRows) :
    Sound dims root gRows gCols ntimes grid (state.send dims gRows gCols rank) where
  exchange := sound.exchange
  underWay source row notRoot owner := by
    have before := sound.underWay source row notRoot owner
    have tag : state.sentRows rank + 1 + (dims.meshDecomp gRows gCols rank).gFirstRow - 1 =
        (dims.meshDecomp gRows gCols rank).gFirstRow + state.sentRows rank := by omega
    rw [sent_send]
    change UnderWay _ _ _ _ (if source = rank ∧ row = _ then _ else _) _ _
      (state.received root source row) _
    rw [tag]
    split
    · next this =>
        obtain ⟨rfl, rfl⟩ := this
        rw [rowBuf_eq sound.exchange inCheckpoint (Nat.le_add_left 1 _) left, tag]
        have unsent : state.sent dims gRows gCols source
            ((dims.meshDecomp gRows gCols source).gFirstRow + state.sentRows source) =
              state.iter source :=
          congrArg (_ + ·) (if_neg (Nat.lt_irrefl _))
        rw [unsent] at before ⊢
        exact before.push
    · exact before
  unused source row foreign := by
    refine (if_neg ?_).trans (sound.unused source row foreign)
    rintro ⟨rfl, rfl⟩
    exact foreign ⟨notRoot, by unfold Owns; omega⟩
  line := sound.line
  printed := sound.printed

theorem ownLine_sources (dims : Dims nprocs) (gRows gCols : ℕ) (state : State nprocs)
    (notRoot : source ≠ root) :
    source ∉ (ownLine dims root gRows gCols state).sources := by
  unfold ownLine
  split
  · exact fun listed => notRoot (List.mem_singleton.mp listed)
  · exact List.not_mem_nil

theorem ownLine_shows (sound : Sound dims root gRows gCols ntimes grid state)
    (inCheckpoint : state.InCheckpoint root) :
    Shows dims gRows gCols grid (ownLine dims root gRows gCols state) state.row
      (state.iter root) := by
  have cleared : Shows dims gRows gCols grid ⟨fun _ => ' ', []⟩ state.row (state.iter root) :=
    ⟨.nil, nofun, nofun⟩
  unfold ownLine
  split
  · next owner =>
      obtain ⟨starts, ends⟩ := owner
      have own := rowBuf_eq sound.exchange inCheckpoint
        (Nat.le_add_left 1 (state.row - (dims.meshDecomp gRows gCols root).gFirstRow)) (by omega)
      rw [show state.row - (dims.meshDecomp gRows gCols root).gFirstRow + 1 +
        (dims.meshDecomp gRows gCols root).gFirstRow - 1 = state.row by omega] at own
      have shown := cleared.add (show Owns dims gRows gCols root state.row from ⟨starts, ends⟩)
        List.not_mem_nil
      rwa [← own] at shown
  · exact cleared

theorem beginRow (sound : Sound dims root gRows gCols ntimes grid state)
    (inCheckpoint : state.InCheckpoint root) (none : state.line = none) :
    Sound dims root gRows gCols ntimes grid
      { state with line := some (ownLine dims root gRows gCols state) } where
  exchange := sound.exchange
  underWay source row notRoot owner := by
    have before := sound.underWay source row notRoot owner
    have absent := ownLine_sources dims gRows gCols state notRoot
    rw [State.received, State.sources, none] at before
    change UnderWay _ _ _ _ _ _ _ (state.iter root + if row < state.row ∨
      row = state.row ∧ source ∈ (ownLine ..).sources then 1 else 0) (state.sent ..)
    simpa [absent] using before
  unused := sound.unused
  line line same := Option.some.inj same ▸ sound.ownLine_shows inCheckpoint
  printed := sound.printed

/-- The row that rank 0 is at is the only one that a receive counts for. -/
theorem received_receive {line : Line nprocs} (here : state.line = some line)
    (fresh : source ∉ state.sources) (buf : Buf) (rest : List Buf) (other : Fin nprocs) (row : ℕ) :
    (state.receive line source buf rest).received root other row =
      state.received root other row + if other = source ∧ row = state.row then 1 else 0 := by
  have sources : state.sources = line.sources := by rw [State.sources, here]; rfl
  change state.iter root + (if row < state.row ∨ row = state.row ∧
    other ∈ line.sources ++ [source] then 1 else 0) = _
  rw [sources] at fresh
  simp only [State.received, sources, List.mem_append, List.mem_singleton]
  obtain rfl | different := eq_or_ne other source
  · simp only [fresh, or_true, and_true, and_false, or_false, true_and]
    split_ifs <;> omega
  · simp only [different, or_false, false_and, if_false, Nat.add_zero]

theorem receive (sound : Sound dims root gRows gCols ntimes grid state) {line : Line nprocs}
    (here : state.line = some line) {buf : Buf} {rest : List Buf}
    (arrived : state.channel source state.row = buf :: rest) (fresh : source ∉ state.sources) :
    Sound dims root gRows gCols ntimes grid (state.receive line source buf rest) := by
  have used : source ≠ root ∧ Owns dims gRows gCols source state.row := by
    by_contra foreign
    rw [sound.unused source _ foreign] at arrived
    cases arrived
  have unreceived : state.received root source state.row = state.iter root :=
    congrArg (_ + ·) (if_neg (by simp [fresh]))
  have before := sound.underWay source state.row used.1 used.2
  rw [arrived] at before
  obtain ⟨rfl, later⟩ := before.pop
  constructor
  case exchange => exact sound.exchange
  case underWay =>
    intro other row notRoot owner
    rw [received_receive here fresh]
    change UnderWay _ _ _ _ (if other = source ∧ row = state.row then _ else _) _ _ _
      (state.sent ..)
    split
    · next this =>
        obtain ⟨rfl, rfl⟩ := this
        exact later
    · exact sound.underWay other row notRoot owner
  case unused =>
    intro other row foreign
    refine (if_neg ?_).trans (sound.unused other row foreign)
    rintro ⟨rfl, rfl⟩
    exact foreign used
  case line =>
    intro line' same
    obtain rfl := Option.some.inj same
    rw [State.sources, here] at fresh
    rw [unreceived]
    exact (sound.line line here).add used.2 fresh
  case printed => exact sound.printed

/-- A row is done with where all its owners have contributed. -/
theorem received_print {line : Line nprocs} (here : state.line = some line) {row : ℕ}
    (contributed : row = state.row → source ∈ line.sources) :
    (state.print root gCols line).received root source row =
      state.received root source row := by
  have sources : state.sources = line.sources := by rw [State.sources, here]; rfl
  refine congrArg (state.iter root + ·) (if_congr ?_ rfl rfl)
  rw [sources]
  constructor
  · rintro (less | ⟨_, none⟩)
    · exact (Nat.lt_succ_iff_lt_or_eq.mp less).imp_right fun same => ⟨same, contributed same⟩
    · cases none
  · rintro (earlier | ⟨rfl, _⟩)
    · exact .inl (Nat.lt_succ_of_lt earlier)
    · exact .inl (Nat.lt_succ_self _)

theorem print (sound : Sound dims root gRows gCols ntimes grid state) {line : Line nprocs}
    (here : state.line = some line) (full : ¬ line.sources.length < dims.pcols) :
    Sound dims root gRows gCols ntimes grid (state.print root gCols line) := by
  have right := (sound.line line here).right full (dims.pcols_pos root)
  constructor
  case exchange => exact sound.exchange
  case underWay =>
    intro source row notRoot owner
    rw [received_print here fun same => (right.owners source).mpr (same ▸ owner)]
    exact sound.underWay source row notRoot owner
  case unused => exact sound.unused
  case line =>
    intro line' none
    cases none
  case printed =>
    intro printed listed
    rcases List.mem_append.mp listed with earlier | last
    · exact sound.printed printed earlier
    · exact List.mem_singleton.mp last ▸ right

/-- When a rank leaves its checkpoint, what counted for the iteration it counts as done. -/
theorem received_leave {row : ℕ} (owner : Owns dims gRows gCols source row)
    (done : rank = root → state.line = none ∧ gRows < state.row) :
    (state.leave root rank).received root source row = state.received root source row := by
  obtain rfl | other := eq_or_ne rank root
  · obtain ⟨none, last⟩ := done rfl
    have below := owner.le_gRows
    have positive := (gFirstRow_pos source).trans owner.1
    unfold State.received State.sources State.leave
    simp only [none, Function.update_self, if_true]
    rw [if_neg (by simp; omega), if_pos (by omega)]
  · simp only [State.received, State.sources, State.leave, Function.update_of_ne other.symm,
      if_neg other]
    rfl

theorem sent_leave {row : ℕ} (owner : Owns dims gRows gCols source row)
    (done : rank = source →
      state.sentRows source = (dims.meshDecomp gRows gCols source).lRows) :
    (state.leave root rank).sent dims gRows gCols source row =
      state.sent dims gRows gCols source row := by
  unfold State.sent State.leave
  obtain rfl | other := eq_or_ne rank source
  · simp only [Function.update_self, Nat.add_zero]
    rw [if_neg (Nat.not_lt.mpr owner.1), done rfl, if_pos owner.2]
  · simp only [Function.update_of_ne other.symm]

theorem leave (sound : Sound dims root gRows gCols ntimes grid state)
    (displayed : rank = root → state.line = none ∧ gRows < state.row)
    (sent : rank ≠ root → state.sentRows rank = (dims.meshDecomp gRows gCols rank).lRows) :
    Sound dims root gRows gCols ntimes grid (state.leave root rank) where
  exchange := sound.exchange
  underWay source row notRoot owner := by
    rw [received_leave owner displayed, sent_leave owner fun same => by
      subst same
      exact sent notRoot]
    exact sound.underWay source row notRoot owner
  unused := sound.unused
  line line here := by
    obtain rfl | other := eq_or_ne rank root
    · cases (displayed rfl).1.symm.trans here
    · simpa only [State.leave, Function.update_of_ne other.symm, if_neg other] using
        sound.line line here
  printed := sound.printed

/-- What rank 0 shows stays right while it matches no rank twice for a row. -/
theorem step {action : Action nprocs} (sound : Sound dims root gRows gCols ntimes grid state)
    (taken : StdoutDisplay.step dims root gRows gCols ntimes state action = some next)
    (first : FirstMatch ⟨state, action, next⟩) :
    Sound dims root gRows gCols ntimes grid next := by
  cases action with
  | exchange action =>
      obtain ⟨_, taken⟩ := Option.ite_none_left_eq_some.mp taken
      obtain ⟨exchange, moved, rfl⟩ := Option.map_eq_some_iff.mp taken
      exact { sound with exchange := sound.exchange.steps (.single moved) }
  | send rank =>
      obtain ⟨⟨notRoot, inCheckpoint, left⟩, same⟩ := Option.ite_none_right_eq_some.mp taken
      obtain rfl := Option.some.inj same
      exact sound.send notRoot inCheckpoint left
  | beginRow =>
      obtain ⟨⟨inCheckpoint, none, _⟩, same⟩ := Option.ite_none_right_eq_some.mp taken
      obtain rfl := Option.some.inj same
      exact sound.beginRow inCheckpoint (Option.isNone_iff_eq_none.mp none)
  | receive source =>
      obtain ⟨line, here, taken⟩ := Option.bind_eq_some_iff.mp taken
      split at taken
      · split at taken
        · cases taken
        · next buf rest arrived =>
            obtain rfl := Option.some.inj taken
            exact sound.receive here arrived first
      · cases taken
  | printRow =>
      obtain ⟨line, here, taken⟩ := Option.bind_eq_some_iff.mp taken
      split at taken
      · cases taken
      · next full =>
          obtain rfl := Option.some.inj taken
          exact sound.print here full
  | leave rank =>
      obtain ⟨⟨_, done⟩, same⟩ := Option.ite_none_right_eq_some.mp taken
      obtain rfl := Option.some.inj same
      refine sound.leave (fun isRoot => ?_) fun notRoot => ?_
      · rw [if_pos isRoot] at done
        exact ⟨Option.isNone_iff_eq_none.mp done.1, Nat.lt_of_not_le done.2⟩
      · rwa [if_neg notRoot] at done

end Sound

/-- In every run from the start in which no receive of rank 0 matches a rank that has
contributed to the row already, every line printed shows its row after its iteration, from
one contribution of each owner. -/
theorem display_right (positive : 0 < nprocs) {start finish : State nprocs}
    {trace : List (Transition (State nprocs) (Action nprocs))}
    (initial : (system dims ⟨0, positive⟩ gRows gCols ntimes grid).Initial start)
    (steps : (system dims ⟨0, positive⟩ gRows gCols ntimes grid).Steps start trace finish)
    (first : ∀ transition ∈ trace, FirstMatch transition) :
    ∀ printed ∈ finish.printed, Right dims gRows gCols grid printed := by
  suffices Sound dims ⟨0, positive⟩ gRows gCols ntimes grid finish from this.printed
  induction steps with
  | refl =>
      obtain ⟨mem, patches, rfl⟩ := initial
      exact .start patches
  | step prior taken ih =>
      have earlier := ih fun transition listed =>
        first transition (List.mem_append_left _ listed)
      exact earlier.step taken (first _ (List.mem_append_right _ (List.mem_singleton.mpr rfl)))

/-! ### A strip of three live cells

Two iterations on a row of three patches. Rank 2 only waits for rank 1, and rank 0 is still
in its first checkpoint when rank 2 sends its row a second time: rank 0 takes both messages,
and the one of rank 1 is not needed any more. -/

private def stripDims : Dims 3 := ⟨1, 3, rfl⟩

private def strip : Grid := fun _ _ => true

private def stripMem (rank : Fin 3) : Mem :=
  let patch := stripDims.meshDecomp 1 3 rank
  initialise patch.lRows patch.lCols
    (fun i j => cell (strip (i + patch.gFirstRow - 1) (j + patch.gFirstCol - 1))) fun _ => 7

private def rank0 : Fin 3 := ⟨0, Nat.zero_lt_succ 2⟩

private def rank1 : Fin 3 := ⟨1, Nat.succ_lt_succ (Nat.zero_lt_succ 1)⟩

private def rank2 : Fin 3 := ⟨2, Nat.lt_succ_self 2⟩

private def stripCalls (rank : Fin 3) : List (Action 3) :=
  List.replicate 4 (.exchange (.call rank))

private def stripMessage (source dest : Fin 3) (message : ℕ) : List (Action 3) :=
  [.exchange (.read source dest message 0), .exchange (.store source dest message 0)]

private def stripPhase (rank : Fin 3) : List (Action 3) :=
  stripCalls rank ++ [.exchange (.waitall rank)]

/-- All ranks finish the first iteration. -/
private def stripFirst : List (Action 3) :=
  stripCalls rank0 ++ stripCalls rank1 ++ stripCalls rank2 ++ stripMessage rank0 rank1 0 ++
    stripMessage rank1 rank0 0 ++ stripMessage rank1 rank2 0 ++ stripMessage rank2 rank1 0 ++
    [.exchange (.waitall rank0), .exchange (.waitall rank1), .exchange (.waitall rank2)] ++
    stripPhase rank0 ++ stripPhase rank1 ++ stripPhase rank2

/-- Rank 2 finishes the second iteration while rank 0 is in its first checkpoint. -/
private def stripSecond : List (Action 3) :=
  [.send rank2, .leave rank2, .send rank1, .leave rank1] ++ stripCalls rank2 ++
    stripCalls rank1 ++ stripMessage rank2 rank1 1 ++ stripMessage rank1 rank2 1 ++
    [.exchange (.waitall rank2)] ++ stripPhase rank2 ++ [.send rank2]

private def stripStart : State 3 := start stripDims 1 3 2 stripMem

private theorem strip_initial : (system stripDims rank0 1 3 2 strip).Initial stripStart :=
  ⟨stripMem, fun _ => ⟨_, rfl⟩, rfl⟩

private def stripRun := (System.exec (step stripDims rank0 1 3 2) stripStart (stripFirst ++
  [.send rank2, .beginRow, .receive rank2, .send rank1, .receive rank1, .printRow])).get
    (by decide +kernel)

private theorem stripRun_exec : System.exec (step stripDims rank0 1 3 2) stripStart (stripFirst ++
    [.send rank2, .beginRow, .receive rank2, .send rank1, .receive rank1, .printRow]) =
    some stripRun :=
  (Option.some_get _).symm

theorem display_right_strip :
    Right stripDims 1 3 strip ⟨0, 1, [' ', '*', ' '], [rank0, rank2, rank1]⟩ :=
  display_right (Nat.zero_lt_succ 2) strip_initial (System.exec_steps stripRun_exec)
    (by decide +kernel) _ (by decide +kernel)

private def mixedRun := (System.exec (step stripDims rank0 1 3 2) stripStart (stripFirst ++
  stripSecond ++ [.beginRow, .receive rank2, .receive rank2, .printRow])).get (by decide +kernel)

private theorem mixedRun_exec : System.exec (step stripDims rank0 1 3 2) stripStart (stripFirst ++
    stripSecond ++ [.beginRow, .receive rank2, .receive rank2, .printRow]) = some mixedRun :=
  (Option.some_get _).symm

/-- The line for row 1 in the first iteration may be blank, with rank 2 in it twice and rank 1
not at all, where the row is a live cell between two dead ones. -/
theorem strip_wrong : ∃ state, (system stripDims rank0 1 3 2 strip).Reachable state ∧
    ∃ printed ∈ state.printed,
      printed = ⟨0, 1, [' ', ' ', ' '], [rank0, rank2, rank2]⟩ ∧
      ¬ Right stripDims 1 3 strip printed ∧
      (List.range 3).map (fun col => mark (cell (strip.generation 1 3 1 1 (col + 1)))) =
        [' ', '*', ' '] := by
  refine ⟨mixedRun.2, System.reachable_of_exec strip_initial mixedRun_exec, _, ?_, rfl,
    fun right => absurd right.once ?_, ?_⟩ <;> decide +kernel

end HandsOn.Life.StdoutDisplay
