import HandsOn.Spawn.FileCopyLockstep
import Mathlib.Algebra.GroupWithZero.Nat

/-!
# Incomplete transfers of the parallel file copy

What `read` and `write` return decides what the output files hold, and the exit statuses of
the processes are all that they report. The copy loop takes a failed `read` for the end of
the file and ignores what `write` returns.
-/

namespace HandsOn.Spawn

/-- What the system calls of a run return. Process 0 is the master, the slaves follow. -/
structure Transfers where
  input : List UInt8
  /-- The input file can be opened. -/
  infd : Bool
  /-- The process can open its output file. -/
  canOpen : ℕ → Bool
  /-- The positive results of `read`, one after the other. -/
  counts : List ℕ
  counts_fit : ∀ count ∈ counts, 0 < count ∧ count ≤ bufsize
  counts_within : counts.sum ≤ input.length
  /-- The `read` after them returns -1, not 0. -/
  readFails : Bool
  /-- `read` returns 0 at the end of the file only. -/
  eof : readFails = false → counts.sum = input.length
  /-- The result of each `write` of a process. -/
  written : ℕ → ℕ → ℤ
  written_fits : ∀ (p k count : ℕ), counts[k]? = some count →
    -1 ≤ written p k ∧ written p k ≤ count

/-- How a process ends: its exit status, and what its output file holds, if it has opened it. -/
structure Outcome where
  exitStatus : ℤ
  output : Option (List UInt8)

/-- What the broadcasts of one iteration deliver. -/
structure Iteration where
  numread : ℤ
  buf : List UInt8

namespace Transfers

variable (transfers : Transfers)

/-- The results of `read`. -/
def reads : List ℤ := transfers.counts.map Int.ofNat ++ [if transfers.readFails then -1 else 0]

/-- `mystatus` of a process. -/
def mystatus (p : ℕ) : ℤ := if transfers.canOpen p then 0 else -1

/-- `allstatus`, the least status of the master and its slaves. -/
def allstatus (slaves : ℕ) : ℤ :=
  ((List.range slaves).map fun p => transfers.mystatus (p + 1)).foldl min (transfers.mystatus 0)

/-- `write(outfd, buf, numread)` as call `k` of a process, from what its file holds. -/
def write (p k : ℕ) (output buf : List UInt8) : List UInt8 :=
  output ++ buf.take (transfers.written p k).toNat

/-- The copy loop of the master: what it broadcasts, and what its file holds. -/
def masterLoop : List ℤ → List UInt8 → ℕ → List UInt8 → List Iteration × List UInt8
  | [], _, _, output => ([], output)
  | numread :: reads, unread, k, output =>
      if numread > 0 then
        let buf := unread.take numread.toNat
        let (later, output) := masterLoop reads (unread.drop numread.toNat) (k + 1)
          (transfers.write 0 k output buf)
        (⟨numread, buf⟩ :: later, output)
      else ([⟨numread, []⟩], output)

/-- The copy loop of a slave on what the master broadcasts. -/
def slaveLoop (p : ℕ) : List Iteration → ℕ → List UInt8 → List UInt8
  | [], _, output => output
  | ⟨numread, buf⟩ :: later, k, output =>
      if numread > 0 then slaveLoop p later (k + 1) (transfers.write p k output buf) else output

/-- The control message of the master. -/
def controlmsg : List UInt8 := if transfers.infd then readyText else exitText

/-- What the master broadcasts in the copy loop. -/
def broadcasts : List Iteration := (transfers.masterLoop transfers.reads transfers.input 0 []).1

/-- `main` of `pcp-spawn-master.c` -/
def master (slaves : ℕ) : Outcome :=
  if transfers.infd then
    let opened := if transfers.mystatus 0 = -1 then none else some []
    if transfers.allstatus slaves = -1 then ⟨1, opened⟩
    else ⟨0, opened.map fun output =>
      (transfers.masterLoop transfers.reads transfers.input 0 output).2⟩
  else ⟨-1, none⟩

/-- `main` of `pcp-spawn-slave.c` -/
def slave (slaves p : ℕ) : Outcome :=
  if transfers.controlmsg = exitText then ⟨1, none⟩
  else
    let opened := if transfers.mystatus p = -1 then none else some []
    if transfers.allstatus slaves = -1 then ⟨-1, opened⟩
    else ⟨0, opened.map fun output => transfers.slaveLoop p transfers.broadcasts 0 output⟩

/-- How a process of the copy to `slaves` slaves ends. -/
def outcome (slaves p : ℕ) : Outcome :=
  if p = 0 then transfers.master slaves else transfers.slave slaves p

/-- All processes report success. -/
def Succeeds (slaves : ℕ) : Prop := ∀ p < slaves + 1, (transfers.outcome slaves p).exitStatus = 0

/-- A copy that reports success is complete. -/
def Complete (slaves : ℕ) : Prop :=
  transfers.Succeeds slaves → ∀ p < slaves + 1,
    (transfers.outcome slaves p).output = some transfers.input

/-- The input file and all output files can be opened. -/
def Opens (slaves : ℕ) : Prop :=
  transfers.infd = true ∧ ∀ p < slaves + 1, transfers.canOpen p = true

/-- The reads deliver the whole file, and each process stores all bytes of each. -/
def Full (slaves : ℕ) : Prop :=
  transfers.counts.sum = transfers.input.length ∧
    ∀ p < slaves + 1, ∀ k count : ℕ, transfers.counts[k]? = some count →
      transfers.written p k = count

variable {transfers}

/-! ### The copy loop -/

/-- What a process stores of the chunks that the reads deliver. -/
def stored (transfers : Transfers) (p : ℕ) : List ℕ → List UInt8 → ℕ → List UInt8
  | [], _, _ => []
  | count :: counts, unread, k =>
      (unread.take count).take (transfers.written p k).toNat ++
        stored transfers p counts (unread.drop count) (k + 1)

theorem masterLoop_output (counts : List ℕ) (positive : ∀ count ∈ counts, 0 < count) {last : ℤ}
    (ends : last ≤ 0) (unread : List UInt8) (k : ℕ) (output : List UInt8) :
    (transfers.masterLoop (counts.map Int.ofNat ++ [last]) unread k output).2 =
      output ++ transfers.stored 0 counts unread k := by
  induction counts generalizing unread k output with
  | nil => simp [masterLoop, stored, Int.not_lt.mpr ends]
  | cons count counts ih =>
      have some_bytes : (Int.ofNat count) > 0 :=
        Int.natCast_pos.mpr (positive count List.mem_cons_self)
      rw [List.map_cons, List.cons_append, masterLoop, if_pos some_bytes]
      simp only [ih fun count listed => positive count (List.mem_cons_of_mem _ listed)]
      rw [write, stored, List.append_assoc]
      rfl

/-- A slave stores what its writes take of the master's chunks. -/
theorem slaveLoop_broadcasts (p : ℕ) (counts : List ℕ) (positive : ∀ count ∈ counts, 0 < count)
    {last : ℤ} (ends : last ≤ 0) (unread : List UInt8) (k : ℕ) (own output : List UInt8) :
    transfers.slaveLoop p
        (transfers.masterLoop (counts.map Int.ofNat ++ [last]) unread k own).1 k output =
      output ++ transfers.stored p counts unread k := by
  induction counts generalizing unread k own output with
  | nil => simp [masterLoop, slaveLoop, stored, Int.not_lt.mpr ends]
  | cons count counts ih =>
      have some_bytes : (Int.ofNat count) > 0 :=
        Int.natCast_pos.mpr (positive count List.mem_cons_self)
      rw [List.map_cons, List.cons_append, masterLoop, if_pos some_bytes]
      simp only [slaveLoop, if_pos some_bytes]
      rw [ih fun count listed => positive count (List.mem_cons_of_mem _ listed)]
      rw [write, stored, List.append_assoc]
      rfl

theorem length_stored_le (p : ℕ) (counts : List ℕ) (unread : List UInt8) (k : ℕ) :
    (transfers.stored p counts unread k).length ≤ counts.sum := by
  induction counts generalizing unread k with
  | nil => exact Nat.le_refl 0
  | cons count counts ih =>
      rw [stored, List.length_append, List.sum_cons]
      refine Nat.add_le_add ?_ (ih _ _)
      rw [List.take_take, List.length_take]
      exact (Nat.min_le_left _ _).trans (Nat.min_le_right _ _)

/-- Behind a whole chunk, what is stored is the file if the rest of it is stored. -/
theorem stored_cons_of_full (p : ℕ) {count : ℕ} {counts : List ℕ} {unread : List UInt8} {k : ℕ}
    (full : transfers.written p k = count) :
    transfers.stored p (count :: counts) unread k = unread ↔
      transfers.stored p counts (unread.drop count) (k + 1) = unread.drop count := by
  rw [stored, full, Int.toNat_natCast, List.take_take, Nat.min_self]
  conv_lhs =>
    rhs
    rw [← List.take_append_drop count unread]
  exact List.append_right_inj _

/-- What a write leaves out is missing at the end. -/
theorem stored_cons_of_short (p : ℕ) {count : ℕ} {counts : List ℕ} {unread : List UInt8} {k : ℕ}
    (within : (count :: counts).sum ≤ unread.length) (some_bytes : 0 < count)
    (short : transfers.written p k < count) :
    transfers.stored p (count :: counts) unread k ≠ unread := by
  intro same
  have lengths := congrArg List.length same
  rw [List.sum_cons] at within
  rw [stored, List.length_append, List.take_take, List.length_take] at lengths
  have later := transfers.length_stored_le p counts (unread.drop count) (k + 1)
  omega

/-- The chunk of the first iteration and those of the later ones. -/
theorem forall_chunk_cons {P : ℕ → ℕ → Prop} {k first : ℕ} {counts : List ℕ} :
    (∀ i count : ℕ, (first :: counts)[i]? = some count → P (k + i) count) ↔
      P k first ∧ ∀ i count : ℕ, counts[i]? = some count → P (k + 1 + i) count := by
  constructor
  · intro all
    refine ⟨all 0 first rfl, fun i count listed => ?_⟩
    rw [Nat.succ_add_eq_add_succ]
    exact all (i + 1) count listed
  · rintro ⟨here, later⟩ i count listed
    cases i with
    | zero => exact Option.some.inj listed ▸ here
    | succ i =>
        rw [← Nat.succ_add_eq_add_succ]
        exact later i count listed

/-- What a process stores is the file if and only if nothing has been left out. -/
theorem stored_eq_iff (p : ℕ) {counts : List ℕ} {unread : List UInt8} {k : ℕ}
    (within : counts.sum ≤ unread.length)
    (fits : ∀ i count : ℕ, counts[i]? = some count → transfers.written p (k + i) ≤ count)
    (positive : ∀ count ∈ counts, 0 < count) :
    transfers.stored p counts unread k = unread ↔ counts.sum = unread.length ∧
      ∀ i count : ℕ, counts[i]? = some count → transfers.written p (k + i) = count := by
  induction counts generalizing unread k with
  | nil => simp [stored, eq_comm]
  | cons count counts ih =>
      obtain ⟨fit, fits⟩ := (forall_chunk_cons (P := fun k count =>
        transfers.written p k ≤ (count : ℤ))).mp fits
      rw [forall_chunk_cons (P := fun k count => transfers.written p k = (count : ℤ))]
      by_cases full : transfers.written p k = count
      · rw [List.sum_cons] at within ⊢
        have inside : counts.sum ≤ (unread.drop count).length := by
          rw [List.length_drop]
          omega
        have rest := ih inside fits fun later listed =>
          positive later (List.mem_cons_of_mem _ listed)
        rw [stored_cons_of_full p full, rest, List.length_drop]
        have lengths : counts.sum = unread.length - count ↔ count + counts.sum = unread.length := by
          omega
        rw [lengths, and_iff_right full]
      · have short : transfers.written p k < count := lt_of_le_of_ne fit full
        apply iff_of_false
        · exact stored_cons_of_short p within (positive count List.mem_cons_self) short
        · rintro ⟨_, here, _⟩
          exact full here

/-! ### The exit statuses -/

theorem foldl_mystatus (first : ℕ) (rest : List ℕ) :
    (rest.map fun p => transfers.mystatus (p + 1)).foldl min (transfers.mystatus first) =
      if transfers.canOpen first ∧ ∀ p ∈ rest, transfers.canOpen (p + 1) then 0 else -1 := by
  have kept : ∀ (status : ℤ), status = 0 ∨ status = -1 →
      (rest.map fun p => transfers.mystatus (p + 1)).foldl min status =
        if status = 0 ∧ ∀ p ∈ rest, transfers.canOpen (p + 1) then 0 else -1 := by
    induction rest with
    | nil => rintro status (rfl | rfl) <;> rfl
    | cons p rest ih =>
        intro status either
        rw [List.map_cons, List.foldl_cons, ih]
        · rcases either with rfl | rfl <;>
            cases opens : transfers.canOpen (p + 1) <;> simp [mystatus, opens]
        · rcases either with rfl | rfl <;>
            cases opens : transfers.canOpen (p + 1) <;> simp [mystatus, opens]
  rw [kept _ (by rw [mystatus]; split <;> simp)]
  cases opens : transfers.canOpen first <;> simp [mystatus, opens]

theorem allstatus_eq (slaves : ℕ) :
    transfers.allstatus slaves =
      if ∀ p < slaves + 1, transfers.canOpen p = true then 0 else -1 := by
  have all : (transfers.canOpen 0 = true ∧ ∀ p ∈ List.range slaves, transfers.canOpen (p + 1)) ↔
      ∀ p < slaves + 1, transfers.canOpen p = true := by
    simp only [List.mem_range]
    constructor
    · rintro ⟨first, later⟩ p bounded
      cases p with
      | zero => exact first
      | succ p => exact later p (Nat.lt_of_succ_lt_succ bounded)
    · exact fun all => ⟨all 0 (Nat.succ_pos slaves), fun p bounded => all (p + 1) (by omega)⟩
  rw [allstatus, foldl_mystatus]
  simp only [all]

theorem opens_of_succeeds {slaves : ℕ} (succeeds : transfers.Succeeds slaves) :
    transfers.Opens slaves := by
  have master := succeeds 0 (Nat.succ_pos slaves)
  rw [outcome, if_pos rfl, Transfers.master] at master
  cases present : transfers.infd with
  | false => simp [present] at master
  | true =>
      refine ⟨present, ?_⟩
      by_contra refused
      have failed : transfers.allstatus slaves = -1 := (allstatus_eq slaves).trans (if_neg refused)
      simp [present, failed] at master

theorem readsEnd (transfers : Transfers) : (if transfers.readFails then (-1 : ℤ) else 0) ≤ 0 := by
  split <;> decide

/-- How the processes end that have entered the copy loop. -/
theorem outcome_eq {slaves : ℕ} (opens : transfers.Opens slaves) {p : ℕ}
    (bounded : p < slaves + 1) :
    transfers.outcome slaves p =
      ⟨0, some (transfers.stored p transfers.counts transfers.input 0)⟩ := by
  obtain ⟨present, canOpen⟩ := opens
  have positive : ∀ count ∈ transfers.counts, 0 < count :=
    fun count listed => (transfers.counts_fit count listed).1
  have entered : transfers.allstatus slaves = 0 :=
    (transfers.allstatus_eq slaves).trans (if_pos canOpen)
  have ready : transfers.controlmsg ≠ exitText := by
    rw [controlmsg, present]
    decide
  have opened : transfers.mystatus p = 0 := if_pos (canOpen p bounded)
  by_cases first : p = 0
  · subst first
    simp only [outcome, master, present, entered, opened, reads,
      masterLoop_output _ positive transfers.readsEnd]
    rfl
  · simp only [outcome, slave, if_neg first, if_neg ready, entered, opened, broadcasts, reads,
      slaveLoop_broadcasts p _ positive transfers.readsEnd]
    rfl

/-! ### The distributed copy -/

/-- The chunks that reads of these counts deliver. -/
def chunksOf : List ℕ → List UInt8 → List (List UInt8)
  | [], _ => []
  | count :: counts, unread => unread.take count :: chunksOf counts (unread.drop count)

theorem foldl_write {write : List UInt8 → List UInt8 → List UInt8} {p : ℕ} {counts : List ℕ}
    {unread : List UInt8} {k : ℕ} (output : List UInt8)
    (same : ∀ (i : ℕ) output chunk, (chunksOf counts unread)[i]? = some chunk →
      write output chunk = transfers.write p (k + i) output chunk) :
    (chunksOf counts unread).foldl write output =
      output ++ transfers.stored p counts unread k := by
  induction counts generalizing unread k output with
  | nil => simp [chunksOf, stored]
  | cons count counts ih =>
      have next : ∀ (i : ℕ) output chunk, (chunksOf counts (unread.drop count))[i]? = some chunk →
          write output chunk = transfers.write p (k + 1 + i) output chunk := by
        intro i output chunk listed
        rw [Nat.succ_add_eq_add_succ]
        exact same (i + 1) output chunk listed
      rw [chunksOf, List.foldl_cons, same 0 output _ rfl, ih _ next, stored, Transfers.write,
        List.append_assoc]
      rfl

/-- Every run of master and slaves that read these chunks and write in this way leaves these
outputs. -/
theorem pcp_output {env : Environment} {slaves : ℕ} (opens : transfers.Opens slaves)
    (copies : env.Copies slaves) (reads : env.chunks = chunksOf transfers.counts transfers.input)
    (writes : ∀ p (k : ℕ) output chunk, env.chunks[k]? = some chunk →
      env.write p output chunk = transfers.write p k output chunk)
    {state : Mpi.Collective.State Communicator Process}
    (reachable : (env.pcp slaves).system.Reachable state) {p : ℕ} (bounded : p < slaves + 1)
    (finished : (env.pcp slaves).Finished state p) :
    (transfers.outcome slaves p).output = some (state.locals p).output := by
  obtain ⟨final, lockstep, ended⟩ := Environment.start_lockstep env slaves
  rw [(lockstep.of_finished reachable bounded finished).2, ((ended p bounded).copied copies).2,
    outcome_eq opens bounded, reads, foldl_write (k := 0)]
  · rfl
  · intro k output chunk listed
    rw [Nat.zero_add]
    exact writes p k output chunk (reads ▸ listed)

/-- A copy that reports success is complete if and only if some file could not be opened, or
the reads delivered the whole file and every write stored all its bytes. -/
theorem complete_iff (transfers : Transfers) (slaves : ℕ) :
    transfers.Complete slaves ↔ (transfers.Opens slaves → transfers.Full slaves) := by
  have positive : ∀ count ∈ transfers.counts, 0 < count :=
    fun count listed => (transfers.counts_fit count listed).1
  have fits : ∀ p i count : ℕ, transfers.counts[i]? = some count →
      transfers.written p (0 + i) ≤ count := by
    intro p i count listed
    rw [Nat.zero_add]
    exact (transfers.written_fits p i count listed).2
  have full_iff := fun p => stored_eq_iff p transfers.counts_within (fits p) positive
  simp only [Nat.zero_add] at full_iff
  constructor
  · intro complete opens
    have copied : ∀ p < slaves + 1,
        transfers.stored p transfers.counts transfers.input 0 = transfers.input := by
      intro p bounded
      have output := complete (fun p bounded => congrArg _ (outcome_eq opens bounded)) p bounded
      rw [outcome_eq opens bounded] at output
      exact Option.some.inj output
    exact ⟨((full_iff 0).mp (copied 0 (Nat.succ_pos slaves))).1,
      fun p bounded => ((full_iff p).mp (copied p bounded)).2⟩
  · intro full succeeds p bounded
    have opens := opens_of_succeeds succeeds
    obtain ⟨total, writes⟩ := full opens
    rw [outcome_eq opens bounded, (full_iff p).mpr ⟨total, writes p bounded⟩]

/-- A file of one byte that cannot be read. -/
def unreadable : Transfers where
  input := [7]
  infd := true
  canOpen _ := true
  counts := []
  counts_fit := by simp
  counts_within := by simp
  readFails := true
  eof := by simp
  written _ _ := -1
  written_fits := by simp

/-- A file of one byte that the master stores and the slave does not. -/
def diskFull : Transfers where
  input := [7]
  infd := true
  canOpen _ := true
  counts := [1]
  counts_fit := by simp [bufsize]
  counts_within := by simp
  readFails := false
  eof := by simp
  written p _ := if p = 0 then 1 else -1
  written_fits := by
    intro p k count listed
    obtain ⟨rfl, rfl⟩ : k = 0 ∧ 1 = count := by simpa [List.getElem?_cons, apply_ite] using listed
    split <;> decide

/-- Both copies report success. -/
theorem not_complete_unreadable :
    ¬ unreadable.Complete 1 ∧ ¬ diskFull.Complete 1 := by
  have succeeds : unreadable.Succeeds 1 ∧ diskFull.Succeeds 1 := by
    constructor <;> unfold Succeeds <;> decide
  constructor
  · intro complete
    exact absurd (complete succeeds.1 0 (by decide)) (by decide)
  · intro complete
    exact absurd (complete succeeds.2 1 (by decide)) (by decide)

end Transfers

end HandsOn.Spawn
