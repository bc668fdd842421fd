import HandsOn.Mpi.Rounds
import HandsOn.Sparse.Retry

/-!
# Readers that part

The collective calls of `CSRIO_Read_rows` of `csrio-mpiio.c`. A rank whose read fails returns at
once, and leaves the others alone in the next call; only the outcome of the allocations is agreed
on.
-/

namespace HandsOn.Sparse.ReadTogether

open HandsOn.Mpi

/-- The collective calls, in the order of the code. -/
inductive ReadCall where
  | fileOpen
  | readIa
  | allreduce
  | readJa
  | readA
deriving DecidableEq

inductive Code where
  | success
  | err (code : Int32)
  | errIo
deriving DecidableEq

/-- The outcomes of the steps of each rank: the codes that opening the file and its reads return,
0 for success, the maximum that its caller gives, the count that it finds, and its regions. -/
structure Outcomes where
  nprocs : ℕ
  openErr : ℕ → Int32
  iaErr : ℕ → Int32
  jaErr : ℕ → Int32
  aErr : ℕ → Int32
  myNz : ℕ → Int32
  count : ℕ → Int32
  regions : ℕ → Regions

namespace Outcomes

variable (outcomes : Outcomes)

/-- `my_mem_ok` of a rank. -/
def myMemOk (rank : ℕ) : Bool :=
  (outcomes.regions rank).myMemOk (outcomes.myNz rank) (outcomes.count rank)

/-- `all_mem_ok` -/
def allMemOk : Bool := (List.range outcomes.nprocs).all outcomes.myMemOk

/-- `if (err != MPI_SUCCESS) return err;` -/
def failed (err : Int32) : Option Code := if err ≠ 0 then some (.err err) else none

/-- What a rank returns after each of its calls, if it returns there. -/
def exit (n rank : ℕ) : Option Code :=
  match n with
  | 0 => failed (outcomes.openErr rank)
  | 1 => failed (outcomes.iaErr rank)
  | 2 => if !outcomes.allMemOk then some .errIo else none
  | 3 => failed (outcomes.jaErr rank)
  | 4 => some ((failed (outcomes.aErr rank)).getD .success)
  | _ => none

/-- `CSRIO_Read_rows` on all ranks. -/
def csrioReadRows : Rounds.Program ReadCall Code where
  size := outcomes.nprocs
  calls := [.fileOpen, .readIa, .allreduce, .readJa, .readA]
  synchronises call := call = .allreduce
  exit := outcomes.exit
  nonempty := List.cons_ne_nil _ _
  ends _ _ := rfl

/-- The ranks stay together, and all succeed or all fail. -/
def Together : Prop := outcomes.csrioReadRows.Together (· = .success)

/-- A call fails on all ranks. -/
def AllFail (err : ℕ → Int32) : Prop := ∀ rank < outcomes.nprocs, err rank ≠ 0

/-- A call fails on no rank. -/
def NoneFails (err : ℕ → Int32) : Prop := ∀ rank < outcomes.nprocs, err rank = 0

/-- Each call that the ranks come to fails on all of them or on none. -/
def Uniform : Prop :=
  outcomes.AllFail outcomes.openErr ∨ outcomes.NoneFails outcomes.openErr ∧
  (outcomes.AllFail outcomes.iaErr ∨ outcomes.NoneFails outcomes.iaErr ∧
  (outcomes.allMemOk = false ∨
  (outcomes.AllFail outcomes.jaErr ∨ outcomes.NoneFails outcomes.jaErr ∧
  (outcomes.AllFail outcomes.aErr ∨ outcomes.NoneFails outcomes.aErr))))

/-! ### Where ranks return -/

theorem allFail_iff (err : ℕ → Int32) : outcomes.AllFail err ↔
    ∀ rank < outcomes.nprocs, (failed (err rank)).isSome = true := by
  refine forall₂_congr fun rank _ => ?_
  rw [failed]
  split
  case isTrue fails => exact iff_of_true fails rfl
  case isFalse succeeds => exact iff_of_false succeeds Bool.false_ne_true

theorem noneFails_iff (err : ℕ → Int32) : outcomes.NoneFails err ↔
    ∀ rank < outcomes.nprocs, failed (err rank) = none := by
  refine forall₂_congr fun rank _ => ?_
  rw [failed]
  split
  case isTrue fails => exact iff_of_false fails (Option.some_ne_none _)
  case isFalse succeeds => exact iff_of_true (not_not.mp succeeds) rfl

theorem failed_ne_success {err : Int32} {code : Code} (fails : code ∈ failed err) :
    code ≠ .success := by
  rw [failed] at fails
  split at fails
  case isTrue => cases fails; exact Code.noConfusion
  case isFalse => cases fails

theorem getD_failed_iff (err : Int32) : (failed err).getD .success = .success ↔ err = 0 := by
  rw [failed]
  split
  case isTrue fails => exact iff_of_false Code.noConfusion fails
  case isFalse succeeds => exact iff_of_true rfl (not_not.mp succeeds)

/-- Only after the last call a rank returns success. -/
theorem exit_ne_success {n rank : ℕ} (before : n < 4) {code : Code}
    (exits : code ∈ outcomes.exit n rank) : code ≠ .success := by
  match n, before with
  | 0, _ | 1, _ | 3, _ => exact failed_ne_success exits
  | 2, _ =>
    rintro rfl
    obtain ⟨_, same⟩ := Option.ite_none_right_eq_some.mp exits
    cases same

/-- No rank has returned before a call. -/
def Come (n : ℕ) : Prop := ∀ k < n, ∀ rank < outcomes.nprocs, outcomes.exit k rank = none

variable {outcomes}

theorem Come.succ {n : ℕ} (come : outcomes.Come n)
    (stay : ∀ rank < outcomes.nprocs, outcomes.exit n rank = none) : outcomes.Come (n + 1) := by
  intro k below rank inside
  rcases Nat.lt_succ_iff_lt_or_eq.mp below with earlier | rfl
  · exact come k earlier rank inside
  · exact stay rank inside

/-- All ranks return an error together. -/
theorem Come.exitTogether {n : ℕ} (come : outcomes.Come n) (before : n < 4)
    (fail : ∀ rank < outcomes.nprocs, (outcomes.exit n rank).isSome = true) :
    ∃ n < outcomes.csrioReadRows.calls.length,
      outcomes.csrioReadRows.ExitTogether (· = .success) n :=
  ⟨n, Nat.lt_succ_of_lt before, fail, fun rank inside k below => come k below rank inside,
    fun _ _ _ _ _ exits _ exits' =>
      iff_of_false (outcomes.exit_ne_success before exits) (outcomes.exit_ne_success before exits')⟩

/-- Where each call fails on all ranks or on none, there is one from which all return. -/
theorem Uniform.exitTogether (uniform : outcomes.Uniform) :
    ∃ n < outcomes.csrioReadRows.calls.length,
      outcomes.csrioReadRows.ExitTogether (· = .success) n := by
  have start : outcomes.Come 0 := fun k below => absurd below k.not_lt_zero
  obtain openFails | ⟨opened, uniform⟩ := uniform
  · exact start.exitTogether (by decide) ((outcomes.allFail_iff _).mp openFails)
  have first := start.succ ((outcomes.noneFails_iff _).mp opened)
  obtain iaFails | ⟨iaRead, uniform⟩ := uniform
  · exact first.exitTogether (by decide) ((outcomes.allFail_iff _).mp iaFails)
  have second := first.succ ((outcomes.noneFails_iff _).mp iaRead)
  cases enough : outcomes.allMemOk with
  | false =>
    refine second.exitTogether (by decide) fun rank _ => ?_
    rw [exit, enough]
    rfl
  | true =>
    have third := second.succ fun rank _ => by rw [exit, enough]; rfl
    obtain short | jaFails | ⟨jaRead, uniform⟩ := uniform
    · rw [enough] at short
      cases short
    · exact third.exitTogether (by decide) ((outcomes.allFail_iff _).mp jaFails)
    have fourth := third.succ ((outcomes.noneFails_iff _).mp jaRead)
    refine ⟨4, Nat.lt_succ_self 4, fun _ _ => rfl,
      fun rank inside k below => fourth k below rank inside,
      fun rank inside other inside' code exits code' exits' => ?_⟩
    cases exits
    cases exits'
    rw [getD_failed_iff, getD_failed_iff]
    cases uniform with
    | inl aFails => exact iff_of_false (aFails rank inside) (aFails other inside')
    | inr aRead => exact iff_of_true (aRead rank inside) (aRead other inside')

/-- Ranks that return together come to calls that fail on all of them or on none. -/
theorem uniform_of_exitTogether {n : ℕ} (within : n < outcomes.csrioReadRows.calls.length)
    (exits : outcomes.csrioReadRows.ExitTogether (· = .success) n) : outcomes.Uniform := by
  -- a call that fails on no rank is followed by another
  have call (k : ℕ) (err : ℕ → Int32) (is : ∀ rank, outcomes.exit k rank = failed (err rank))
      (come : k ≤ n) : outcomes.AllFail err ∨ outcomes.NoneFails err ∧ k + 1 ≤ n := by
    rw [allFail_iff, noneFails_iff]
    simp only [← is]
    rcases Nat.eq_or_lt_of_le come with rfl | below
    · exact Or.inl exits.exits
    · exact Or.inr ⟨fun rank inside => exits.earlier rank inside k below, below⟩
  refine (call 0 outcomes.openErr (fun _ => rfl) n.zero_le).imp_right fun ⟨opened, come⟩ =>
    ⟨opened, (call 1 outcomes.iaErr (fun _ => rfl) come).imp_right fun ⟨iaRead, come⟩ =>
      ⟨iaRead, or_iff_not_imp_left.mpr fun enough => ?_⟩⟩
  rw [Bool.not_eq_false] at enough
  have stays (rank : ℕ) : outcomes.exit 2 rank = none := by
    rw [exit, enough]
    rfl
  rcases Nat.eq_or_lt_of_le come with rfl | come
  · refine Or.inl fun rank inside => ?_
    have leaves := exits.exits rank inside
    change (outcomes.exit 2 rank).isSome = true at leaves
    rw [stays] at leaves
    cases leaves
  refine (call 3 outcomes.jaErr (fun _ => rfl) come).imp_right fun ⟨jaRead, come⟩ => ⟨jaRead, ?_⟩
  obtain rfl : n = 4 := Nat.le_antisymm (Nat.le_of_lt_succ within) come
  have agree (rank other : ℕ) (inside : rank < outcomes.nprocs)
    (inside' : other < outcomes.nprocs) :
      outcomes.aErr rank = 0 ↔ outcomes.aErr other = 0 := by
    rw [← getD_failed_iff, ← getD_failed_iff (outcomes.aErr other)]
    exact exits.verdict rank inside other inside' _ rfl _ rfl
  refine or_iff_not_imp_left.mpr fun some rank inside => ?_
  simp only [AllFail, not_forall, not_not] at some
  obtain ⟨other, inside', read⟩ := some
  exact (agree rank other inside inside').mpr read

end Outcomes

/-- The ranks stay together exactly if each call that they come to fails on all of them or on
none. -/
theorem together_iff (outcomes : Outcomes) : outcomes.Together ↔ outcomes.Uniform := by
  rw [Outcomes.Together, Rounds.Program.together_iff_exitTogether]
  constructor
  · rintro ⟨n, within, exits⟩
    exact Outcomes.uniform_of_exitTogether within exits
  · intro uniform
    exact uniform.exitTogether

/-! ### A rank that is left alone -/

/-- Two ranks of which the second fails to read its row starts. -/
def secondFails : Outcomes where
  nprocs := 2
  openErr := fun _ => 0
  iaErr := fun rank => if rank = 1 then 5 else 0
  jaErr := fun _ => 0
  aErr := fun _ => 0
  myNz := fun _ => 0
  count := fun _ => 1
  regions := fun _ => ⟨some 1, some 2, none, none⟩

private def partedActions : List Rounds.Action :=
  [.enter 0, .enter 1, .leave 0, .leave 1, .enter 0, .enter 1, .leave 0, .leave 1, .enter 0]

private def parted : List (Semantics.Transition (Rounds.State Code) Rounds.Action) ×
    Rounds.State Code :=
  (Semantics.System.exec secondFails.csrioReadRows.step (fun _ => .before 0) partedActions).get
    (by decide)

private theorem parted_exec :
    Semantics.System.exec secondFails.csrioReadRows.step (fun _ => .before 0) partedActions =
      some parted :=
  (Option.some_get _).symm

/-- The second rank has returned an error, and the first one waits in the reduction for ever. -/
theorem first_left_alone :
    secondFails.csrioReadRows.system.Reachable parted.2 ∧
      parted.2 0 = .inside 2 ∧ parted.2 1 = .returned 1 (.err 5) ∧
      (∀ p < 2, (secondFails.csrioReadRows.step parted.2 (.enter p)).isNone ∧
        (secondFails.csrioReadRows.step parted.2 (.leave p)).isNone) ∧
      ¬ secondFails.Together := by
  have reachable : secondFails.csrioReadRows.system.Reachable parted.2 :=
    Semantics.System.reachable_of_exec rfl parted_exec
  refine ⟨reachable, by decide, by decide, by decide, fun together => ?_⟩
  have behind := together.noneBehind _ reachable 1 (by decide) 1 (.err 5) (by decide) 0 (by decide)
  exact absurd behind (by decide)

end HandsOn.Sparse.ReadTogether
