import Mathlib.Data.Fintype.Lattice
import Mathlib.Data.List.GetD
import HandsOn.Life.RowDisplay
import HandsOn.Mpi.Fifo

/-!
# The display of row blocks is right

Rank 0 receives from each rank once in an iteration, so that the messages of a rank that rank 0
has received and not yet received are told apart by their number alone: the next one to arrive
is that of the iteration of rank 0, however far the rank is ahead. Rank 0 prints page after
page.
-/

namespace HandsOn.Life

open HandsOn.Mpi HandsOn.Semantics

variable {nprocs rows cols ntimes : ℕ} {grid : Grid}

/-! ### The exchange -/

/-- What the display rests on: the ranks calculate their iterations one after another, by their
own calls; those that are furthest behind wait for nobody; and a rank that has calculated an
iteration holds its rows of the generation. -/
structure Exchanging.Calculates (exchanging : Exchanging nprocs) (rows cols ntimes : ℕ)
    (grid : Grid) : Prop where
  initial : ∀ {state}, exchanging.Initial state → ∀ rank, exchanging.phase state rank = 0
  step : ∀ {state action next}, exchanging.step state action = some next → ∀ rank,
    exchanging.phase next rank = exchanging.phase state rank ∨
      (exchanging.caller action = some rank ∧
        exchanging.phase next rank = exchanging.phase state rank + 1)
  progress : ∀ {state}, exchanging.system.Reachable state → ∀ last,
    exchanging.phase state last < ntimes →
      (∀ rank, exchanging.phase state last ≤ exchanging.phase state rank) →
        ∃ action next, exchanging.step state action = some next ∧
          ∀ rank, exchanging.caller action = some rank →
            exchanging.phase state rank = exchanging.phase state last
  cells : ∀ {state}, exchanging.system.Reachable state → ∀ {rank k i j},
    exchanging.phase state rank = k → i < rowsOf rows rank → j < cols →
      exchanging.mem state rank (matrixAt k, offset cols (i + 1) (j + 1)) =
        cell (grid.generation rows cols k (offsetOf rows rank + (i + 1)) (j + 1))

/-- A rank that has finished iterations holds its rows. -/
theorem RowExchange.Reaches.cell {exchange : RowExchange} {rank : Fin nprocs} {k i j : ℕ}
    {mem : Mem} (reaches : exchange.Reaches rows cols ntimes grid rank k mem)
    (inRows : i < rowsOf rows rank) (inCols : j < cols) :
    mem (matrixAt k, offset cols (i + 1) (j + 1)) =
      Life.cell (grid.generation rows cols k (offsetOf rows rank + (i + 1)) (j + 1)) :=
  edges_interior reaches.edges.2 reaches.edges.1
    ⟨⟨Nat.le_add_left 1 i, inRows⟩, Nat.le_add_left 1 j, inCols⟩

/-- All implementations calculate Life. -/
theorem RowExchange.calculates (exchange : RowExchange) :
    (exchange.exchanging nprocs rows cols ntimes grid).Calculates rows cols ntimes grid := by
  cases exchange with
  | pt2pt =>
      refine ⟨?_, PointToPoint.phase_step, fun reachable _ => ?_,
        fun reachable _ _ _ _ phase inRows inCols => ?_⟩
      · rintro _ ⟨mem, _, rfl⟩ rank
        rfl
      · exact PointToPoint.Program.progress_behind (pt2pt_matched rows cols ntimes) reachable
      · exact (show RowExchange.pt2pt.Reaches rows cols ntimes grid _ _ _ from
          ⟨_, reachable, phase, rfl⟩).cell inRows inCols
  | fence =>
      refine ⟨?_, OneSided.phase_step, fun reachable _ => ?_,
        fun reachable _ _ _ _ phase inRows inCols => ?_⟩
      · rintro _ ⟨mem, _, rfl⟩ rank
        rfl
      · exact OneSided.Program.progress_behind (fence_matched rows cols ntimes) reachable
      · exact (show RowExchange.fence.Reaches rows cols ntimes grid _ _ _ from
          ⟨_, reachable, phase, rfl⟩).cell inRows inCols
  | pscw =>
      refine ⟨?_, OneSided.phase_step, fun reachable _ => ?_,
        fun reachable _ _ _ _ phase inRows inCols => ?_⟩
      · rintro _ ⟨mem, _, rfl⟩ rank
        rfl
      · exact OneSided.Program.progress_behind (pscw_matched rows cols ntimes) reachable
      · exact (show RowExchange.pscw.Reaches rows cols ntimes grid _ _ _ from
          ⟨_, reachable, phase, rfl⟩).cell inRows inCols

namespace RowDisplay

/-! ### Messages -/

/-- What a derived datatype of a block of rows selects. -/
theorem select_rowblk (matrix : Int) (myrows cols : ℕ) (ints : ℕ → Int) :
    select (typeCreateRowblk matrix myrows cols) matrix ints =
      (List.range myrows).flatMap fun i =>
        (List.range cols).map fun j => ints (offset cols (i + 1) (j + 1)) := by
  rw [select, typemap_rowblk, List.map_map, List.map_flatMap]
  refine List.flatMap_congr fun i _ => ?_
  rw [List.map_map]
  refine List.map_congr_left fun j _ => congrArg ints ?_
  simp only [address]
  omega

/-- What a rank sends in an iteration. -/
def messageOf (rows cols : ℕ) (grid : Grid) (source : Fin nprocs) (iter : ℕ) : Message where
  iter := iter
  ints := (List.range (rowsOf rows source)).flatMap fun i => (List.range cols).map fun j =>
    cell (grid.generation rows cols (iter + 1) (offsetOf rows source + (i + 1)) (j + 1))

theorem length_messageOf (source : Fin nprocs) (iter : ℕ) :
    (messageOf rows cols grid source iter).ints.length = rowsOf rows source * cols := by
  simp [messageOf]

theorem getD_messageOf (source : Fin nprocs) (iter : ℕ) {i j : ℕ} (inRows : i < rowsOf rows source)
    (inCols : j < cols) (fresh : Int) :
    (messageOf rows cols grid source iter).ints.getD (i * cols + j) fresh =
      cell (grid.generation rows cols (iter + 1) (offsetOf rows source + (i + 1)) (j + 1)) := by
  rw [List.getD_eq_getElem?_getD, messageOf, flatMap_map_getElem? _ inRows inCols]
  rfl

variable {exchanging : Exchanging nprocs} {matrix : Fin nprocs → Buffer → Int} {fresh : ℕ → Int}
  {state : State exchanging}

/-- In its checkpoint, a rank sends its rows of the generation. -/
theorem message_eq (calculates : exchanging.Calculates rows cols ntimes grid)
    (reachable : exchanging.system.Reachable state.exchange) {rank : Fin nprocs}
    (inCheckpoint : state.InCheckpoint rank) :
    state.message rows cols matrix rank = messageOf rows cols grid rank (state.iter rank) := by
  refine congrArg (Message.mk _) ((select_rowblk _ _ _ _).trans ?_)
  refine List.flatMap_congr fun i inRows => List.map_congr_left fun j inCols => ?_
  exact calculates.cells reachable inCheckpoint (List.mem_range.mp inRows)
    (List.mem_range.mp inCols)

/-! ### Pages -/

/-- A line of a page. -/
theorem rowPrint_eq {data : ℕ → Int} {rownr iter : ℕ}
    (holds : ∀ j < cols, data j = cell (grid.generation rows cols (iter + 1) rownr (j + 1)))
    (first : 1 ≤ rownr) (last : rownr ≤ rows) :
    (page rows cols grid iter)[rownr]? = some (rowPrint data cols rownr) := by
  obtain ⟨row, rfl⟩ := Nat.exists_eq_add_of_le' first
  rw [page, List.getElem?_cons_succ, List.getElem?_map, List.getElem?_range'
    (by omega : row < rows), Option.map_some, rowPrint, List.range'_eq_map_range, List.map_map]
  rw [Nat.one_mul, Nat.add_comm 1 row]
  refine congrArg (some ∘ Output.row (row + 1)) (List.map_congr_left fun j inCols => ?_)
  rw [holds j (List.mem_range.mp inCols), Function.comp_apply, Nat.add_comm 1 j]
  cases grid.generation rows cols (iter + 1) (row + 1) (j + 1) <;> rfl

theorem length_page (iter : ℕ) : (page rows cols grid iter).length = rows + 1 := by
  simp [page]

theorem pages_succ (count : ℕ) :
    pages rows cols grid (count + 1) = pages rows cols grid count ++ page rows cols grid count := by
  rw [pages, List.range_succ, List.flatMap_append, List.flatMap_singleton]
  rfl

theorem page_take_succ {iter shown : ℕ} {output : Output}
    (next : (page rows cols grid iter)[shown]? = some output) :
    (page rows cols grid iter).take (shown + 1) =
      (page rows cols grid iter).take shown ++ [output] := by
  rw [List.take_add_one, next]
  rfl

/-! ### Places -/

/-- The ranks below this one have been received from. -/
def Place.received : Place → ℕ
  | .start => 1
  | .own _ => 1
  | .next i _ => i
  | .rows i _ _ _ => i + 1

/-- The lines of the page that have been printed. -/
def Place.shown : Place → ℕ
  | .start => 0
  | .own i => i
  | .next _ totrows => totrows + 1
  | .rows _ totrows j _ => totrows + j + 1

/-- The variables of rank 0 at a place: it counts the rows of the ranks before, and has the rows
of the rank that it has received from. -/
def Place.Right (nprocs rows cols : ℕ) (grid : Grid) (iter : ℕ) : Place → Prop
  | .start => True
  | .own i => 1 ≤ i ∧ i ≤ myrows rows 0 nprocs + 1
  | .next i totrows => 1 ≤ i ∧ i ≤ nprocs ∧ totrows = myrowoffset rows i nprocs
  | .rows i totrows j data => 1 ≤ i ∧ i < nprocs ∧ totrows = myrowoffset rows i nprocs ∧
      j ≤ myrows rows i nprocs ∧ ∀ k < myrows rows i nprocs, ∀ c < cols,
        data (k * cols + c) =
          cell (grid.generation rows cols (iter + 1) (totrows + (k + 1)) (c + 1))

/-- The messages from a rank that rank 0 has received. -/
def State.received (state : State exchanging) (root source : Fin nprocs) : ℕ :=
  state.iter root + if source.val < state.place.received then 1 else 0

/-- What is under way has been sent and not received, and rank 0 is right so far. -/
structure Sound (root : Fin nprocs) (rows cols : ℕ) (grid : Grid) (state : State exchanging) :
    Prop where
  exchange : exchanging.system.Reachable state.exchange
  phase : ∀ rank, exchanging.phase state.exchange rank = state.iter rank ∨ state.InCheckpoint rank
  sending : ∀ rank, state.sent rank = true → state.InCheckpoint rank
  underWay : ∀ source, source ≠ root → UnderWay (messageOf rows cols grid source)
    (state.channel source) (state.received root source)
      (state.iter source + (state.sent source).toNat)
  place : state.place.Right nprocs rows cols grid (state.iter root)
  output : state.output = pages rows cols grid (state.iter root) ++
    (page rows cols grid (state.iter root)).take state.place.shown
  receipts : ∀ receipt ∈ state.receipts,
    receipt.message = messageOf rows cols grid receipt.source receipt.iter ∧
      receipt.count = rowsOf rows receipt.source * cols

/-- The step can be taken even if `MPI_Send` returns only when its message has been received. -/
def Due (root : Fin nprocs) (state : State exchanging) : Action exchanging → Prop
  | .leave rank => rank ≠ root → state.channel rank = []
  | _ => True

namespace Sound

variable {root rank source : Fin nprocs} {next : State exchanging}

theorem start (calculates : exchanging.Calculates rows cols ntimes grid)
    {exchange : exchanging.State} (initial : exchanging.Initial exchange)
    (zero : root.val = 0) : Sound root rows cols grid (start exchanging exchange) where
  exchange := .initial initial
  phase rank := .inl (calculates.initial initial rank)
  sending _ none := by cases none
  underWay source other := by
    have received : (RowDisplay.start exchanging exchange).received root source = 0 :=
      (Nat.zero_add _).trans
        (if_neg fun below => other (Fin.ext ((Nat.lt_one_iff.mp below).trans zero.symm)))
    rw [received]
    exact .none _ 0
  place := trivial
  output := rfl
  receipts _ none := by cases none

theorem exchange_step (sound : Sound root rows cols grid state)
    (calculates : exchanging.Calculates rows cols ntimes grid) {action : exchanging.Action}
    {exchange : exchanging.State} (taken : exchanging.step state.exchange action = some exchange)
    (free : ∀ rank, exchanging.caller action = some rank → ¬ state.InCheckpoint rank) :
    Sound root rows cols grid { state with exchange } where
  exchange := sound.exchange.steps (.single taken)
  phase rank := by
    rcases calculates.step taken rank with same | ⟨caller, later⟩
    · exact (sound.phase rank).imp same.trans same.trans
    · refine .inr (later.trans (congrArg (· + 1) ?_))
      exact (sound.phase rank).resolve_right (free rank caller)
  sending rank sent := by
    rcases calculates.step taken rank with same | ⟨caller, _⟩
    · exact same.trans (sound.sending rank sent)
    · exact absurd (sound.sending rank sent) (free rank caller)
  underWay := sound.underWay
  place := sound.place
  output := sound.output
  receipts := sound.receipts

theorem send (sound : Sound root rows cols grid state)
    (calculates : exchanging.Calculates rows cols ntimes grid)
    (inCheckpoint : state.InCheckpoint rank) (unsent : state.sent rank = false) :
    Sound root rows cols grid (state.send rows cols matrix rank) where
  exchange := sound.exchange
  phase := sound.phase
  sending other sent := by
    by_cases own : other = rank
    · subst own
      exact inCheckpoint
    · exact sound.sending other ((Function.update_of_ne own _ _).symm.trans sent)
  underWay source other := by
    have before := sound.underWay source other
    by_cases own : source = rank
    · subst own
      rw [unsent] at before
      simp only [State.send, Function.update_self,
        message_eq calculates sound.exchange inCheckpoint]
      exact before.push
    · simp only [State.send, Function.update_of_ne own]
      exact before
  place := sound.place
  output := sound.output
  receipts := sound.receipts

/-- Rank 0 goes on without a receive. -/
theorem move (sound : Sound root rows cols grid state) (printed : Option Output) {place : Place}
    (right : place.Right nprocs rows cols grid (state.iter root))
    (received : place.received = state.place.received)
    (shown : (page rows cols grid (state.iter root)).take place.shown =
      (page rows cols grid (state.iter root)).take state.place.shown ++ printed.toList) :
    Sound root rows cols grid
      { state with place := place, output := state.output ++ printed.toList } where
  exchange := sound.exchange
  phase := sound.phase
  sending := sound.sending
  underWay source other := by
    have before := sound.underWay source other
    rw [State.received, ← received] at before
    exact before
  place := right
  output := by
    show state.output ++ printed.toList = _
    rw [sound.output, shown, List.append_assoc]
  receipts := sound.receipts

/-- Rank 0 prints a row of its own. -/
theorem print_own (sound : Sound root rows cols grid state) (zero : root.val = 0)
    (calculates : exchanging.Calculates rows cols ntimes grid)
    (inCheckpoint : state.InCheckpoint root) {i : ℕ} (here : state.place = .own i)
    (more : i < rowsOf rows root + 1) :
    Sound root rows cols grid
      { state with
        place := .own (i + 1)
        output := state.output ++ [rowPrint (fun j => exchanging.mem state.exchange root
          (matrixAt (state.iter root + 1), offset cols i 1 + j)) cols i] } := by
  have right := sound.place
  rw [here] at right
  obtain ⟨first, last⟩ := right
  have inRows : i ≤ myrows rows 0 nprocs := by
    rw [rowsOf, zero] at more
    exact Nat.le_of_lt_succ more
  refine sound.move (some _) ⟨Nat.le_succ_of_le first, Nat.succ_le_succ inRows⟩
    (by rw [here]; rfl) ?_
  rw [here]
  refine page_take_succ (rowPrint_eq (fun j inCols => ?_) first ?_)
  · obtain ⟨row, rfl⟩ := Nat.exists_eq_add_of_le' first
    have inOwn : row < rowsOf rows root := by
      rw [rowsOf, zero]
      exact inRows
    have own := calculates.cells sound.exchange inCheckpoint inOwn inCols
    rw [offsetOf, zero, myrowoffset_zero, Nat.zero_add] at own
    rw [← own, offset, offset, Nat.add_assoc, Nat.add_comm 1 j]
  · have within := myrowoffset_add_le rows (Nat.zero_lt_of_lt root.isLt)
    rw [myrowoffset_zero] at within
    omega

/-- Rank 0 has printed its rows. -/
theorem own_printed (sound : Sound root rows cols grid state) (zero : root.val = 0) {i : ℕ}
    (here : state.place = .own i) (less : ¬ i < rowsOf rows root + 1) :
    Sound root rows cols grid
      { state with place := .next 1 (rowsOf rows root), output := state.output ++ [] } := by
  have right := sound.place
  rw [here] at right
  obtain ⟨first, last⟩ := right
  have offsets := myrowoffset_succ rows 0 nprocs
  rw [myrowoffset_zero, Nat.zero_add, Nat.zero_add] at offsets
  rw [rowsOf, zero] at less
  have positive : 0 < nprocs := Nat.zero_lt_of_lt root.isLt
  refine sound.move none ⟨Nat.le_refl 1, positive, ?_⟩ (by rw [here]; rfl) ?_
  · rw [rowsOf, zero, offsets]
  · rw [here, rowsOf, zero]
    simp only [Place.shown, Option.toList_none, List.append_nil]
    congr 1
    omega

/-- Rank 0 prints a row that it has received. -/
theorem print_received (sound : Sound root rows cols grid state) {i totrows j : ℕ}
    {data : ℕ → Int} (here : state.place = .rows i totrows j data)
    (more : j < myrows rows i nprocs) :
    Sound root rows cols grid
      { state with
        place := .rows i totrows (j + 1) data
        output := state.output ++
          [rowPrint (fun k => data (j * cols + k)) cols (totrows + j + 1)] } := by
  have right := sound.place
  rw [here] at right
  obtain ⟨first, inside, same, last, holds⟩ := right
  refine sound.move (some _) ⟨first, inside, same, more, holds⟩ (by rw [here]; rfl) ?_
  rw [here]
  refine page_take_succ (rowPrint_eq (fun k inCols => ?_) (Nat.le_add_left 1 _) ?_)
  · exact holds j more k inCols
  · have within := myrowoffset_add_le rows inside
    omega

/-- Rank 0 has printed the rows of a rank. -/
theorem received_printed (sound : Sound root rows cols grid state) {i totrows j : ℕ}
    {data : ℕ → Int} (here : state.place = .rows i totrows j data)
    (less : ¬ j < myrows rows i nprocs) :
    Sound root rows cols grid
      { state with
        place := .next (i + 1) (totrows + myrows rows i nprocs)
        output := state.output ++ [] } := by
  have right := sound.place
  rw [here] at right
  obtain ⟨first, inside, same, last, holds⟩ := right
  have all : j = myrows rows i nprocs := by omega
  refine sound.move none ⟨Nat.le_add_left 1 i, inside, ?_⟩ (by rw [here]; rfl) ?_
  · rw [same, myrowoffset_succ]
  · rw [here, all]
    exact (List.append_nil _).symm

theorem advance (sound : Sound root rows cols grid state) (zero : root.val = 0)
    (calculates : exchanging.Calculates rows cols ntimes grid)
    (inCheckpoint : state.InCheckpoint root) {printed : Option Output} {place : Place}
    (taken : state.advance root rows cols = some (printed, place)) :
    Sound root rows cols grid
      { state with place := place, output := state.output ++ printed.toList } := by
  rw [State.advance] at taken
  cases here : state.place with
  | start =>
      rw [here] at taken
      obtain ⟨rfl, rfl⟩ := Prod.mk.inj (Option.some.inj taken)
      refine sound.move (some _) ⟨Nat.le_refl 1, Nat.le_add_left 1 _⟩ (by rw [here]; rfl) ?_
      rw [here]
      rfl
  | own i =>
      rw [here] at taken
      simp only at taken
      split at taken
      · rename_i more
        obtain ⟨rfl, rfl⟩ := Prod.mk.inj (Option.some.inj taken)
        exact sound.print_own zero calculates inCheckpoint here more
      · rename_i less
        obtain ⟨rfl, rfl⟩ := Prod.mk.inj (Option.some.inj taken)
        exact sound.own_printed zero here less
  | next i totrows =>
      rw [here] at taken
      cases taken
  | rows i totrows j data =>
      rw [here] at taken
      simp only at taken
      split at taken
      · rename_i more
        obtain ⟨rfl, rfl⟩ := Prod.mk.inj (Option.some.inj taken)
        exact sound.print_received here more
      · rename_i less
        obtain ⟨rfl, rfl⟩ := Prod.mk.inj (Option.some.inj taken)
        exact sound.received_printed here less

/-- What rank 0 has received from the rank it comes to next. -/
theorem received_next {totrows : ℕ} (here : state.place = .next source totrows) :
    state.received root source = state.iter root := by
  rw [State.received, here]
  exact congrArg (state.iter root + ·) (if_neg (Nat.lt_irrefl source.val))

theorem receive (sound : Sound root rows cols grid state) (zero : root.val = 0)
    {totrows : ℕ} {message : Message} {rest : List Message}
    (here : state.place = .next source totrows)
    (arrived : state.channel source = message :: rest) :
    Sound root rows cols grid (state.receive root rows cols fresh source totrows message rest) := by
  have right := sound.place
  rw [here] at right
  obtain ⟨first, _, same⟩ := right
  have other : source ≠ root := fun own => by
    rw [own, zero] at first
    exact absurd first (Nat.not_succ_le_zero 0)
  have before := sound.underWay source other
  rw [arrived, received_next here] at before
  obtain ⟨rfl, later⟩ := before.pop
  refine ⟨sound.exchange, sound.phase, sound.sending, fun source' other' => ?underWay, ?place,
    ?output, ?receipts⟩
  case underWay =>
    show UnderWay _ (Function.update state.channel source rest source')
      (state.iter root + if source'.val < source.val + 1 then 1 else 0) _
    by_cases own : source' = source
    · subst own
      rw [Function.update_self, if_pos (Nat.lt_succ_self _)]
      exact later
    · have before' := sound.underWay source' other'
      rw [State.received, here] at before'
      rw [Function.update_of_ne own]
      refine Eq.mp (congrArg (fun first => UnderWay _ _ first _) ?_) before'
      have apart : source'.val ≠ source.val := fun equal => own (Fin.ext equal)
      exact congrArg (state.iter root + ·) (if_congr (by simp only [Place.received]; omega) rfl rfl)
  case place =>
    refine ⟨first, source.isLt, same, Nat.zero_le _, fun k inRows c inCols => ?_⟩
    rw [same]
    exact getD_messageOf source _ inRows inCols _
  case output =>
    have output := sound.output
    rw [here] at output
    exact output
  case receipts =>
    intro receipt listed
    rcases List.mem_append.mp listed with earlier | last
    · exact sound.receipts receipt earlier
    · obtain rfl := List.mem_singleton.mp last
      exact ⟨rfl, rfl⟩

theorem phase_leave (sound : Sound root rows cols grid state)
    (inCheckpoint : state.InCheckpoint rank) (other : Fin nprocs) :
    exchanging.phase (state.leave root rank).exchange other = (state.leave root rank).iter other ∨
      (state.leave root rank).InCheckpoint other := by
  by_cases own : other = rank
  · subst own
    have iter : (state.leave root other).iter other = state.iter other + 1 :=
      Function.update_self _ _ _
    exact .inl (inCheckpoint.trans iter.symm)
  · have before := sound.phase other
    simp only [State.InCheckpoint, State.leave, Function.update_of_ne own] at before ⊢
    exact before

theorem sending_leave (sound : Sound root rows cols grid state) (other : Fin nprocs)
    (sent : (state.leave root rank).sent other = true) :
    (state.leave root rank).InCheckpoint other := by
  by_cases own : other = rank
  · subst own
    exact Bool.noConfusion ((Function.update_self _ _ _).symm.trans sent)
  · have before := sound.sending other ((Function.update_of_ne own _ _).symm.trans sent)
    simp only [State.InCheckpoint, State.leave, Function.update_of_ne own] at before ⊢
    exact before

/-- A rank that has sent its rows leaves its checkpoint. -/
theorem leave (sound : Sound root rows cols grid state) (other : rank ≠ root)
    (inCheckpoint : state.InCheckpoint rank) (sent : state.sent rank = true) :
    Sound root rows cols grid (state.leave root rank) := by
  have same : (state.leave root rank).place = state.place := if_neg other
  have iter : (state.leave root rank).iter root = state.iter root :=
    Function.update_of_ne other.symm _ _
  refine ⟨sound.exchange, sound.phase_leave inCheckpoint, sound.sending_leave,
    fun source notRoot => ?underWay, ?place, ?output, sound.receipts⟩
  case underWay =>
    have before := sound.underWay source notRoot
    rw [State.received, iter, same]
    by_cases own : source = rank
    · subst own
      rw [sent] at before
      simp only [State.leave, Function.update_self]
      exact before
    · simp only [State.leave, Function.update_of_ne own]
      exact before
  case place =>
    rw [iter, same]
    exact sound.place
  case output =>
    rw [iter, same]
    exact sound.output

/-- Rank 0 leaves its checkpoint with the page printed. -/
theorem leave_root (sound : Sound root rows cols grid state) (zero : root.val = 0)
    (inCheckpoint : state.InCheckpoint root) (finished : state.place.finished nprocs = true) :
    Sound root rows cols grid (state.leave root root) := by
  obtain ⟨totrows, here⟩ : ∃ totrows, state.place = .next nprocs totrows := by
    have right := sound.place
    cases here : state.place with
    | next i totrows =>
        rw [here] at right finished
        obtain rfl := Nat.le_antisymm right.2.1 (of_decide_eq_true finished)
        exact ⟨totrows, rfl⟩
    | start => rw [here] at finished; cases finished
    | own i => rw [here] at finished; cases finished
    | rows i totrows j data => rw [here] at finished; cases finished
  have right := sound.place
  rw [here] at right
  obtain ⟨positive, _, same⟩ := right
  rw [myrowoffset_nprocs rows positive] at same
  have iter : (state.leave root root).iter root = state.iter root + 1 := Function.update_self _ _ _
  have place : (state.leave root root).place = .start := if_pos rfl
  refine ⟨sound.exchange, sound.phase_leave inCheckpoint, sound.sending_leave,
    fun source notRoot => ?underWay, ?place, ?output, sound.receipts⟩
  case underWay =>
    have before := sound.underWay source notRoot
    have later : ¬ source.val < 1 := fun below =>
      notRoot (Fin.ext ((Nat.lt_one_iff.mp below).trans zero.symm))
    rw [State.received, here] at before
    rw [State.received, iter, place]
    simp only [Place.received, source.isLt, later, if_true, if_false, Nat.add_zero, State.leave,
      Function.update_of_ne notRoot] at before ⊢
    exact before
  case place =>
    rw [place]
    trivial
  case output =>
    rw [iter, place, pages_succ]
    show state.output = _
    rw [sound.output, here, same]
    simp only [Place.shown, List.take_zero, List.append_nil]
    rw [List.take_of_length_le (length_page _).le]

/-- Every step keeps rank 0 right. -/
theorem step (sound : Sound root rows cols grid state) (zero : root.val = 0)
    (calculates : exchanging.Calculates rows cols ntimes grid) {action : Action exchanging}
    (taken : RowDisplay.step exchanging root rows cols matrix fresh state action = some next) :
    Sound root rows cols grid next := by
  cases action with
  | exchange action =>
      obtain ⟨free, taken⟩ := Option.ite_none_left_eq_some.mp taken
      obtain ⟨exchange, moved, rfl⟩ := Option.map_eq_some_iff.mp taken
      refine sound.exchange_step calculates moved fun rank caller inCheckpoint => free ?_
      rw [caller]
      exact decide_eq_true inCheckpoint
  | send rank =>
      obtain ⟨⟨_, inCheckpoint, unsent⟩, same⟩ := Option.ite_none_right_eq_some.mp taken
      obtain rfl := Option.some.inj same
      exact sound.send calculates inCheckpoint unsent
  | advance =>
      obtain ⟨inCheckpoint, taken⟩ := Option.ite_none_right_eq_some.mp taken
      obtain ⟨⟨printed, place⟩, moved, rfl⟩ := Option.map_eq_some_iff.mp taken
      exact sound.advance zero calculates inCheckpoint moved
  | receive source =>
      simp only [RowDisplay.step] at taken
      split at taken
      · rename_i i totrows message rest here arrived
        obtain ⟨⟨_, own, _⟩, same⟩ := Option.ite_none_right_eq_some.mp taken
        obtain rfl := Option.some.inj same
        exact sound.receive zero (own ▸ here) arrived
      · cases taken
  | leave rank =>
      obtain ⟨⟨inCheckpoint, done⟩, same⟩ := Option.ite_none_right_eq_some.mp taken
      obtain rfl := Option.some.inj same
      by_cases isRoot : rank = root
      · subst isRoot
        rw [if_pos rfl] at done
        exact sound.leave_root zero inCheckpoint done
      · rw [if_neg isRoot] at done
        exact sound.leave isRoot inCheckpoint done

theorem of_reachable (calculates : exchanging.Calculates rows cols ntimes grid)
    (zero : root.val = 0)
    (reachable : (system exchanging root rows cols matrix fresh).Reachable state) :
    Sound root rows cols grid state := by
  refine reachable.invariant ?_ fun sound taken => sound.step zero calculates taken
  rintro _ ⟨exchange, initial, rfl⟩
  exact .start calculates initial zero

/-! ### Progress -/

/-- A rank in its checkpoint that has sent nothing can send. -/
theorem can_send (other : rank ≠ root) (inCheckpoint : state.InCheckpoint rank)
    (unsent : state.sent rank = false) :
    ∃ action next, Due root state action ∧
      RowDisplay.step exchanging root rows cols matrix fresh state action = some next :=
  ⟨.send rank, _, trivial, if_pos ⟨other, inCheckpoint, unsent⟩⟩

/-- A rank whose rows have been received can leave its checkpoint. -/
theorem can_leave (other : rank ≠ root) (inCheckpoint : state.InCheckpoint rank)
    (sent : state.sent rank = true) (received : state.channel rank = []) :
    ∃ action next, Due root state action ∧
      RowDisplay.step exchanging root rows cols matrix fresh state action = some next :=
  ⟨.leave rank, _, fun _ => received, if_pos ⟨inCheckpoint, (if_neg other).trans sent⟩⟩

/-- A rank in its checkpoint that is behind rank 0 can send or leave. -/
theorem progress_of_behind (sound : Sound root rows cols grid state)
    (inCheckpoint : state.InCheckpoint rank)
    (behind : exchanging.phase state.exchange rank ≤ state.iter root) :
    ∃ action next, Due root state action ∧
      RowDisplay.step exchanging root rows cols matrix fresh state action = some next := by
  rw [inCheckpoint] at behind
  have other : rank ≠ root := fun own => by
    rw [own] at behind
    exact absurd behind (Nat.not_succ_le_self _)
  cases sent : state.sent rank with
  | false => exact can_send other inCheckpoint sent
  | true =>
      refine can_leave other inCheckpoint sent ?_
      have underWay := sound.underWay rank other
      rw [sent] at underWay
      have ordered := underWay.ordered
      rw [underWay.channel, Nat.sub_eq_zero_of_le]
      · rfl
      · rw [State.received] at ordered ⊢
        simp only [Bool.toNat_true] at ordered ⊢
        omega

/-- Rank 0 in its checkpoint can go on, or waits for a rank that is behind. -/
theorem root_progress (sound : Sound root rows cols grid state) (zero : root.val = 0)
    (inCheckpoint : state.InCheckpoint root) :
    (∃ action next, Due root state action ∧
      RowDisplay.step exchanging root rows cols matrix fresh state action = some next) ∨
      ∃ source, exchanging.phase state.exchange source ≤ state.iter root := by
  have advances : ∀ {moved}, state.advance root rows cols = some moved →
      ∃ action next, Due root state action ∧
        RowDisplay.step exchanging root rows cols matrix fresh state action = some next := by
    intro moved taken
    exact ⟨.advance, _, trivial, (if_pos inCheckpoint).trans (congrArg (Option.map _) taken)⟩
  have right := sound.place
  cases here : state.place with
  | start => exact .inl (advances (by rw [State.advance, here]))
  | own i =>
      by_cases more : i < rowsOf rows root + 1
      · exact .inl (advances (by rw [State.advance, here]; exact if_pos more))
      · exact .inl (advances (by rw [State.advance, here]; exact if_neg more))
  | rows i totrows j data =>
      by_cases more : j < myrows rows i nprocs
      · exact .inl (advances (by rw [State.advance, here]; exact if_pos more))
      · exact .inl (advances (by rw [State.advance, here]; exact if_neg more))
  | next i totrows =>
      rw [here] at right
      obtain ⟨first, _, _⟩ := right
      rcases Nat.lt_or_ge i nprocs with inside | done
      · have other : (⟨i, inside⟩ : Fin nprocs) ≠ root := fun own => by
          rw [← own] at zero
          exact absurd first (by simp only at zero; omega)
        have underWay := sound.underWay ⟨i, inside⟩ other
        have unreceived : state.received root ⟨i, inside⟩ = state.iter root := received_next here
        rw [unreceived] at underWay
        cases arrived : state.channel ⟨i, inside⟩ with
        | cons message rest =>
            rw [arrived] at underWay
            have same := underWay.pop.1
            refine .inl ⟨.receive ⟨i, inside⟩,
              state.receive root rows cols fresh ⟨i, inside⟩ totrows message rest, trivial, ?_⟩
            simp only [RowDisplay.step, here, arrived]
            exact if_pos ⟨inCheckpoint, trivial, by rw [same, length_messageOf]⟩
        | nil =>
            rw [arrived] at underWay
            have all := underWay.eq_of_nil
            cases sent : state.sent ⟨i, inside⟩ with
            | true => exact .inl (can_leave other (sound.sending _ sent) sent arrived)
            | false =>
                rw [sent] at all
                rcases sound.phase ⟨i, inside⟩ with same | sending
                · exact .inr ⟨⟨i, inside⟩, by rw [same, all]; exact Nat.le_add_right _ _⟩
                · exact .inl (can_send other sending sent)
      · refine .inl ⟨.leave root, _, fun notRoot => absurd rfl notRoot, if_pos ⟨inCheckpoint, ?_⟩⟩
        rw [if_pos rfl, here]
        exact decide_eq_true done

/-- While a rank has checkpoints before it, some step can be taken, even if sends wait until they
are received. -/
theorem progress (sound : Sound root rows cols grid state) (zero : root.val = 0)
    (calculates : exchanging.Calculates rows cols ntimes grid)
    (unfinished : ∃ rank, state.iter rank < ntimes) :
    ∃ action next, Due root state action ∧
      RowDisplay.step exchanging root rows cols matrix fresh state action = some next := by
  have : Nonempty (Fin nprocs) := ⟨root⟩
  obtain ⟨last, minimal⟩ := Finite.exists_min (exchanging.phase state.exchange)
  have behind : (∃ action next, Due root state action ∧
      RowDisplay.step exchanging root rows cols matrix fresh state action = some next) ∨
      exchanging.phase state.exchange last ≤ state.iter root := by
    rcases sound.phase root with same | inCheckpoint
    · exact .inr ((minimal root).trans_eq same)
    · refine (sound.root_progress zero inCheckpoint).imp_right ?_
      rintro ⟨source, before⟩
      exact (minimal source).trans before
  rcases behind with done | behind
  · exact done
  by_cases some_checkpoint : ∃ rank, exchanging.phase state.exchange rank =
      exchanging.phase state.exchange last ∧ state.InCheckpoint rank
  · obtain ⟨rank, same, inCheckpoint⟩ := some_checkpoint
    exact sound.progress_of_behind inCheckpoint (same.trans_le behind)
  · have left : exchanging.phase state.exchange last < ntimes := by
      obtain ⟨rank, more⟩ := unfinished
      have before := minimal rank
      rcases sound.phase rank with same | inCheckpoint
      · omega
      · have later : exchanging.phase state.exchange rank = state.iter rank + 1 := inCheckpoint
        by_contra last_one
        exact some_checkpoint ⟨rank, by omega, inCheckpoint⟩
    obtain ⟨action, exchange, taken, callers⟩ :=
      calculates.progress sound.exchange last left minimal
    refine ⟨.exchange action, _, trivial, (if_neg ?_).trans (congrArg (Option.map _) taken)⟩
    intro blocked
    obtain ⟨rank, caller, inCheckpoint⟩ := (Option.any_eq_true _ _).mp blocked
    exact some_checkpoint ⟨rank, callers rank caller, of_decide_eq_true inCheckpoint⟩

end Sound

/-- In every reachable state rank 0 has printed the pages of the iterations that it has left, and
the beginning of the next; each of its receives has matched the message of the same iteration
with as many ints as it asks for, which are those of the rows of the source; and while a rank
has checkpoints before it, some step can be taken, even if sends wait until they are received. -/
structure ShowsPages (exchanging : Exchanging nprocs) (root : Fin nprocs) (rows cols ntimes : ℕ)
    (grid : Grid) (matrix : Fin nprocs → Buffer → Int) (fresh : ℕ → Int) : Prop where
  output : ∀ state, (system exchanging root rows cols matrix fresh).Reachable state →
    pages rows cols grid (state.iter root) <+: state.output ∧
      state.output <+: pages rows cols grid (state.iter root + 1)
  receipts : ∀ state, (system exchanging root rows cols matrix fresh).Reachable state →
    ∀ receipt ∈ state.receipts, receipt.message.iter = receipt.iter ∧
      receipt.message.ints.length = receipt.count ∧
        receipt.count = myrows rows receipt.source nprocs * cols
  due : ∀ state, (system exchanging root rows cols matrix fresh).Reachable state →
    (∃ rank, state.iter rank < ntimes) → ∃ action next, Due root state action ∧
      (system exchanging root rows cols matrix fresh).Step state action next

/-- The display of row blocks shows generation after generation. -/
theorem row_display_right (exchange : RowExchange) (rows cols ntimes : ℕ) (grid : Grid)
    (positive : 0 < nprocs) (matrix : Fin nprocs → Buffer → Int) (fresh : ℕ → Int) :
    ShowsPages (exchange.exchanging nprocs rows cols ntimes grid) ⟨0, positive⟩ rows cols ntimes
      grid matrix fresh := by
  have calculates : (exchange.exchanging nprocs rows cols ntimes grid).Calculates rows cols ntimes
      grid := exchange.calculates
  refine ⟨fun state reachable => ?_, fun state reachable receipt listed => ?_,
    fun state reachable unfinished => ?_⟩
  · have sound := Sound.of_reachable calculates rfl reachable
    rw [sound.output, pages_succ]
    exact ⟨List.prefix_append _ _, List.prefix_append_right_inj _ |>.mpr (List.take_prefix _ _)⟩
  · have sound := Sound.of_reachable calculates rfl reachable
    obtain ⟨message, count⟩ := sound.receipts receipt listed
    rw [message, length_messageOf]
    exact ⟨rfl, count.symm, count⟩
  · exact (Sound.of_reachable calculates rfl reachable).progress rfl calculates unfinished

/-! One iteration on a column of three live cells on two ranks. -/

private def column : Grid := fun _ _ => true

private def columnMem (rank : Fin 2) : Mem :=
  initialise (rowsOf 3 rank) 1 (fun i j => cell (column (offsetOf 3 rank + i) j)) fun _ => 7

private def rankZero : Fin 2 := ⟨0, Nat.zero_lt_two⟩

private def rankOne : Fin 2 := ⟨1, Nat.one_lt_two⟩

private def columnExchanging : Exchanging 2 := RowExchange.pt2pt.exchanging 2 3 1 1 column

private def columnExchange : List (PointToPoint.Action (Fin 2)) :=
  List.replicate 4 (.call rankOne) ++ (List.range 3).map (.read rankOne rankZero 0) ++
    List.replicate 4 (.call rankZero) ++ (List.range 3).map (.read rankZero rankOne 0) ++
    (List.range 3).map (.store rankZero rankOne 0) ++ [.waitall rankOne] ++
    (List.range 3).map (.store rankOne rankZero 0) ++ [.waitall rankZero]

private def columnCall (action : PointToPoint.Action (Fin 2)) : Action columnExchanging :=
  .exchange action

/-- Rank 1 sends its row and leaves before rank 0 prints its own. -/
private def columnActions : List (Action columnExchanging) :=
  columnExchange.map columnCall ++ [.send rankOne, .leave rankOne] ++ List.replicate 4 .advance ++
    [.receive rankOne, .advance, .advance, .leave rankZero]

private def columnStart : State columnExchanging :=
  start columnExchanging (PointToPoint.start (Life.pt2pt 2 3 1 1) columnMem)

private def columnRun :=
  (System.exec (step columnExchanging rankZero 3 1 (fun _ _ => 4096) fun _ => 7) columnStart
    columnActions).get (by decide +kernel)

private theorem columnRun_exec :
    System.exec (step columnExchanging rankZero 3 1 (fun _ _ => 4096) fun _ => 7) columnStart
      columnActions = some columnRun :=
  (Option.some_get _).symm

private theorem column_initial :
    (system columnExchanging rankZero 3 1 (fun _ _ => 4096) fun _ => 7).Initial columnStart :=
  ⟨_, ⟨columnMem, fun _ => ⟨_, rfl⟩, rfl⟩, rfl⟩

theorem row_display_right_column :
    [.iteration 0, .row 1 [' '], .row 2 ['*'], .row 3 [' ']] <+: columnRun.2.output :=
  ((row_display_right .pt2pt 3 1 1 column Nat.zero_lt_two (fun _ _ => 4096) fun _ => 7).output
    columnRun.2 (System.reachable_of_exec column_initial columnRun_exec)).1

end RowDisplay

end HandsOn.Life
