import HandsOn.Mpi.Lockstep
import HandsOn.Mpi.OneSided
import HandsOn.Mpi.PointToPoint

/-!
# Exchanges with two neighbours

In each phase every rank sends a part of its memory to the rank before it and another part to the
rank after it, and receives from both. With messages and with puts between fences these are the
same transfers; they do not disturb each other if what a rank sends is not where it receives.
-/

namespace HandsOn.Mpi

universe u v w x

/-- The ranks before and after each rank; `none` is `MPI_PROC_NULL`. -/
structure Neighbours (Rank : Type u) where
  before : Rank → Option Rank
  after : Rank → Option Rank
  after_eq_some : ∀ {rank other}, after rank = some other ↔ before other = some rank
  asymm : ∀ {rank other}, before rank = some other → before other ≠ some rank

/-- What each rank sends to its neighbours, and where it receives. -/
structure Edges (Rank : Type u) (Addr : Type v) where
  toBefore : Rank → List Addr
  fromBefore : Rank → List Addr
  toAfter : Rank → List Addr
  fromAfter : Rank → List Addr

section Phase

variable {Rank : Type u} {Addr : Type v} [DecidableEq Rank] (neighbours : Neighbours Rank)
  (edges : Edges Rank Addr)

/-- The calls that exchange the edges of a rank. -/
def Neighbours.calls (rank : Rank) : List (PointToPoint.Call Rank Addr) :=
  [.isend (edges.toBefore rank) (neighbours.before rank),
    .irecv (edges.fromBefore rank) (neighbours.before rank),
    .isend (edges.toAfter rank) (neighbours.after rank),
    .irecv (edges.fromAfter rank) (neighbours.after rank)]

/-- The elements from one rank to another. -/
def Neighbours.transfers (source dest : Rank) : List (Addr × Addr) :=
  if neighbours.before source = some dest then (edges.toBefore source).zip (edges.fromAfter dest)
  else if neighbours.before dest = some source then
    (edges.toAfter source).zip (edges.fromBefore dest)
  else []

/-- Neighbours send as much as they receive from each other. -/
structure Edges.Sized : Prop where
  up : ∀ {rank other}, neighbours.before rank = some other →
    (edges.toBefore rank).length = (edges.fromAfter other).length
  down : ∀ {rank other}, neighbours.before rank = some other →
    (edges.toAfter other).length = (edges.fromBefore rank).length

theorem Neighbours.sendsTo_calls (source dest : Rank) :
    PointToPoint.sendsTo (neighbours.calls edges source) dest =
      if neighbours.before source = some dest then [edges.toBefore source]
      else if neighbours.before dest = some source then [edges.toAfter source] else [] := by
  have other : neighbours.before source = some dest → neighbours.before dest ≠ some source :=
    neighbours.asymm
  simp only [calls, PointToPoint.sendsTo_isend, PointToPoint.sendsTo_irecv,
    PointToPoint.sendsTo_nil, neighbours.after_eq_some]
  split_ifs with up down
  · exact absurd down (other up)
  · rfl
  · rfl
  · rfl

theorem Neighbours.recvsFrom_calls (source dest : Rank) :
    PointToPoint.recvsFrom (neighbours.calls edges dest) source =
      if neighbours.before source = some dest then [edges.fromAfter dest]
      else if neighbours.before dest = some source then [edges.fromBefore dest] else [] := by
  have other : neighbours.before source = some dest → neighbours.before dest ≠ some source :=
    neighbours.asymm
  simp only [calls, PointToPoint.recvsFrom_isend, PointToPoint.recvsFrom_irecv,
    PointToPoint.recvsFrom_nil, neighbours.after_eq_some]
  split_ifs with up down
  · exact absurd up (other down)
  · rfl
  · rfl
  · rfl

/-- A put to each neighbour into where it receives. -/
theorem Neighbours.elementsTo_puts {source : Rank} {up down : List Addr}
    (upwards : ∀ other, neighbours.before source = some other → up = edges.fromAfter other)
    (downwards : ∀ other, neighbours.after source = some other → down = edges.fromBefore other)
    (dest : Rank) :
    OneSided.elementsTo [⟨edges.toBefore source, neighbours.before source, up⟩,
      ⟨edges.toAfter source, neighbours.after source, down⟩] dest =
      neighbours.transfers edges source dest := by
  simp only [OneSided.elementsTo_cons, OneSided.elementsTo_nil, List.append_nil, transfers]
  by_cases above : neighbours.before source = some dest
  · have below : neighbours.after source ≠ some dest := fun below =>
      neighbours.asymm above (neighbours.after_eq_some.mp below)
    rw [if_pos above, if_neg below, if_pos above, List.append_nil, upwards dest above]
  · rw [if_neg above, if_neg above, List.nil_append]
    simp only [neighbours.after_eq_some]
    split
    · next below => rw [downwards dest (neighbours.after_eq_some.mpr below)]
    · rfl

/-- The place of an element at both neighbours. -/
inductive Neighbours.Moves (source dest : Rank) (origin address : Addr) : Prop where
  | up (before : neighbours.before source = some dest) (index : ℕ)
      (sent : (edges.toBefore source)[index]? = some origin)
      (received : (edges.fromAfter dest)[index]? = some address)
  | down (before : neighbours.before dest = some source) (index : ℕ)
      (sent : (edges.toAfter source)[index]? = some origin)
      (received : (edges.fromBefore dest)[index]? = some address)

variable {neighbours edges}

theorem Neighbours.moves_iff {source dest : Rank} {origin address : Addr} :
    neighbours.Moves edges source dest origin address ↔
      ∃ index : ℕ, (neighbours.transfers edges source dest)[index]? = some (origin, address) := by
  unfold transfers
  constructor
  · rintro (⟨before, index, sent, received⟩ | ⟨before, index, sent, received⟩)
    · rw [if_pos before]
      exact ⟨index, List.getElem?_zip_eq_some.mpr ⟨sent, received⟩⟩
    · rw [if_neg fun other => neighbours.asymm other before, if_pos before]
      exact ⟨index, List.getElem?_zip_eq_some.mpr ⟨sent, received⟩⟩
  · rintro ⟨index, listed⟩
    split_ifs at listed with up down
    · obtain ⟨sent, received⟩ := List.getElem?_zip_eq_some.mp listed
      exact .up up index sent received
    · obtain ⟨sent, received⟩ := List.getElem?_zip_eq_some.mp listed
      exact .down down index sent received
    · cases listed

omit [DecidableEq Rank] in
theorem Neighbours.moves_iff_or {source dest : Rank} {origin address : Addr} :
    neighbours.Moves edges source dest origin address ↔
      (neighbours.before source = some dest ∧ ∃ index : ℕ,
        (edges.toBefore source)[index]? = some origin ∧
        (edges.fromAfter dest)[index]? = some address) ∨
      neighbours.before dest = some source ∧ ∃ index : ℕ,
        (edges.toAfter source)[index]? = some origin ∧
        (edges.fromBefore dest)[index]? = some address := by
  constructor
  · rintro (⟨before, index, sent, received⟩ | ⟨before, index, sent, received⟩)
    · exact .inl ⟨before, index, sent, received⟩
    · exact .inr ⟨before, index, sent, received⟩
  · rintro (⟨before, index, sent, received⟩ | ⟨before, index, sent, received⟩)
    · exact .up before index sent received
    · exact .down before index sent received

variable (edges) in
/-- Nothing is received where something is sent from or something else received. -/
structure Edges.Separate : Prop where
  sent : ∀ rank address, address ∈ edges.toBefore rank ∨ address ∈ edges.toAfter rank →
    address ∉ edges.fromBefore rank ∧ address ∉ edges.fromAfter rank
  received : ∀ rank address, address ∈ edges.fromBefore rank → address ∉ edges.fromAfter rank
  before : ∀ rank, (edges.fromBefore rank).Nodup
  after : ∀ rank, (edges.fromAfter rank).Nodup

omit [DecidableEq Rank] in
/-- The index of an element in a list that has it once. -/
theorem index_eq {list : List Addr} (distinct : list.Nodup) {i j : ℕ} {address : Addr}
    (first : list[i]? = some address) (second : list[j]? = some address) : i = j := by
  obtain ⟨inside, _⟩ := List.getElem?_eq_some_iff.mp first
  exact (List.getElem?_inj inside distinct).mp (first.trans second.symm)

omit [DecidableEq Rank] in
/-- What a rank receives is not sent on. -/
theorem Edges.Separate.apart (separate : edges.Separate) {first source dest : Rank}
    {origin middle address : Addr} (arrives : neighbours.Moves edges first source origin middle) :
    ¬ neighbours.Moves edges source dest middle address := by
  intro leaves
  have sent : middle ∈ edges.toBefore source ∨ middle ∈ edges.toAfter source := by
    cases leaves with
    | up _ _ sent _ => exact .inl (List.mem_of_getElem? sent)
    | down _ _ sent _ => exact .inr (List.mem_of_getElem? sent)
  obtain ⟨notBefore, notAfter⟩ := separate.sent source middle sent
  cases arrives with
  | up _ _ _ received => exact notAfter (List.mem_of_getElem? received)
  | down _ _ _ received => exact notBefore (List.mem_of_getElem? received)

omit [DecidableEq Rank] in
/-- Each element that a rank receives has one origin. -/
theorem Edges.Separate.single (separate : edges.Separate) {source source' dest : Rank}
    {origin origin' address : Addr} (moves : neighbours.Moves edges source dest origin address)
    (moves' : neighbours.Moves edges source' dest origin' address) :
    source = source' ∧ origin = origin' := by
  cases moves with
  | up before index sent received =>
      cases moves' with
      | up before' index' sent' received' =>
          obtain rfl := index_eq (separate.after dest) received received'
          have same := (neighbours.after_eq_some.mpr before).symm.trans
            (neighbours.after_eq_some.mpr before')
          cases same
          exact ⟨rfl, Option.some.inj (sent.symm.trans sent')⟩
      | down _ _ _ received' =>
          exact absurd (List.mem_of_getElem? received)
            (separate.received dest address (List.mem_of_getElem? received'))
  | down before index sent received =>
      cases moves' with
      | up _ _ _ received' =>
          exact absurd (List.mem_of_getElem? received')
            (separate.received dest address (List.mem_of_getElem? received))
      | down before' index' sent' received' =>
          obtain rfl := index_eq (separate.before dest) received received'
          cases before.symm.trans before'
          exact ⟨rfl, Option.some.inj (sent.symm.trans sent')⟩

end Phase

/-- A program of exchanges with two neighbours. -/
structure Halo (Rank : Type u) (Addr : Type v) (Val : Type w) where
  phases : ℕ
  neighbours : ℕ → Neighbours Rank
  edges : ℕ → Edges Rank Addr
  update : ℕ → Rank → (Addr → Val) → Addr → Val

namespace Halo

variable {Rank : Type u} {Addr : Type v} {Val : Type w} [DecidableEq Rank]
  (halo : Halo Rank Addr Val)

def exchange : Exchange Rank Addr Val where
  transfers phase source dest :=
    if phase < halo.phases then (halo.neighbours phase).transfers (halo.edges phase) source dest
    else []
  update := halo.update

/-- With messages. -/
def pt2pt : PointToPoint.Program Rank Addr Val where
  phases := halo.phases
  calls phase := (halo.neighbours phase).calls (halo.edges phase)
  update := halo.update

variable {halo}

theorem sends_pt2pt (source dest : Rank) {phase : ℕ} (inTime : phase < halo.phases) :
    halo.pt2pt.sends source dest phase =
      if (halo.neighbours phase).before source = some dest then
        [(halo.edges phase).toBefore source]
      else if (halo.neighbours phase).before dest = some source then
        [(halo.edges phase).toAfter source]
      else [] := by
  rw [PointToPoint.Program.sends, PointToPoint.Program.callsAt, if_pos (by exact inTime)]
  exact (halo.neighbours phase).sendsTo_calls (halo.edges phase) source dest

theorem recvs_pt2pt (source dest : Rank) {phase : ℕ} (inTime : phase < halo.phases) :
    halo.pt2pt.recvs source dest phase =
      if (halo.neighbours phase).before source = some dest then
        [(halo.edges phase).fromAfter dest]
      else if (halo.neighbours phase).before dest = some source then
        [(halo.edges phase).fromBefore dest]
      else [] := by
  rw [PointToPoint.Program.recvs, PointToPoint.Program.callsAt, if_pos (by exact inTime)]
  exact (halo.neighbours phase).recvsFrom_calls (halo.edges phase) source dest

/-- No message is sent after the last phase. -/
theorem pt2pt_over (source dest : Rank) {phase : ℕ} (late : ¬ phase < halo.phases) :
    halo.pt2pt.sends source dest phase = [] ∧ halo.pt2pt.recvs source dest phase = [] := by
  unfold PointToPoint.Program.sends PointToPoint.Program.recvs PointToPoint.Program.callsAt
  rw [if_neg (by exact late), if_neg (by exact late)]
  exact ⟨rfl, rfl⟩

theorem pt2pt_matched (sized : ∀ phase, (halo.edges phase).Sized (halo.neighbours phase)) :
    halo.pt2pt.Matched := by
  intro source dest phase
  by_cases inTime : phase < halo.phases
  · rw [sends_pt2pt source dest inTime, recvs_pt2pt source dest inTime]
    split_ifs with up down
    · exact .inr ⟨_, _, rfl, rfl, (sized phase).up up⟩
    · exact .inr ⟨_, _, rfl, rfl, (sized phase).down down⟩
    · exact .inl ⟨rfl, rfl⟩
  · exact .inl (pt2pt_over source dest inTime)

theorem pt2pt_exchange : halo.pt2pt.exchange = halo.exchange := by
  unfold PointToPoint.Program.exchange exchange
  congr 1
  ext1 phase
  ext1 source
  ext1 dest
  by_cases inTime : phase < halo.phases
  · rw [if_pos inTime, sends_pt2pt source dest inTime, recvs_pt2pt source dest inTime,
      Neighbours.transfers]
    split_ifs
    · simp only [List.flatten_cons, List.flatten_nil, List.append_nil]
    · simp only [List.flatten_cons, List.flatten_nil, List.append_nil]
    · rfl
  · obtain ⟨sends, recvs⟩ := pt2pt_over source dest inTime
    rw [if_neg inTime, sends, recvs]
    rfl

/-- Fences synchronise every rank with those that it puts to and those that put to it. -/
theorem fence_matched {Window : Type x} {program : OneSided.Program Window Rank Addr Val}
    {ranks : List Rank} (all : ∀ rank, rank ∈ ranks)
    (group : ∀ phase, program.group phase = OneSided.fenceGroup ranks (program.puts phase)) :
    program.Matched where
  symm := by
    intro phase source dest member
    rw [group] at member ⊢
    obtain ⟨_, puts⟩ := OneSided.mem_fenceGroup.mp member
    exact OneSided.mem_fenceGroup.mpr ⟨all _, puts.symm⟩
  target := by
    intro phase rank put dest listed aimed
    rw [group]
    unfold OneSided.Program.putsAt at listed
    split at listed
    · exact OneSided.mem_fenceGroup.mpr ⟨all _, .inl ⟨put, listed, aimed⟩⟩
    · cases listed

/-- With puts between fences. -/
theorem fence_exchange {Window : Type x} {program : OneSided.Program Window Rank Addr Val}
    (phases : program.phases = halo.phases) (update : program.update = halo.update)
    (puts : ∀ phase source dest, OneSided.elementsTo (program.puts phase source) dest =
      (halo.neighbours phase).transfers (halo.edges phase) source dest) :
    program.exchange = halo.exchange := by
  unfold OneSided.Program.exchange exchange
  rw [update]
  congr 1
  ext1 phase
  ext1 source
  ext1 dest
  rw [OneSided.Program.putsAt, phases]
  split
  · exact puts phase source dest
  · rfl

theorem transfers_iff {phase : ℕ} {source dest : Rank} {origin address : Addr} :
    halo.exchange.Transfers phase source dest origin address ↔ phase < halo.phases ∧
      (halo.neighbours phase).Moves (halo.edges phase) source dest origin address := by
  rw [Neighbours.moves_iff, Exchange.Transfers]
  simp only [exchange]
  split
  · next inTime => simp only [inTime, true_and]
  · next late => simp [late]

theorem separate (separate : ∀ phase, (halo.edges phase).Separate) (phase : ℕ) :
    halo.exchange.Separate phase where
  apart arrives leaves :=
    (separate phase).apart (transfers_iff.mp arrives).2 (transfers_iff.mp leaves).2
  single moves moves' :=
    (separate phase).single (transfers_iff.mp moves).2 (transfers_iff.mp moves').2

end Halo

end HandsOn.Mpi
