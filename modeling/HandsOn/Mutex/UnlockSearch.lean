import HandsOn.Mutex.Waitlist
import HandsOn.Semantics.While

/-!
# The loops of the search for the next waiter

`MPIMUTEX_Unlock` with its three `while` loops. Whatever the bytes are, the loops end and do
what `skipZeros` does; where some byte is not zero, the search finds the first waiter in cyclic
order.
-/

namespace HandsOn.Mutex

open HandsOn.Semantics

/-- `nextrank < stop && waitlistcopy[nextrank] == 0`, without a value where the index is outside
the array -/
def zeroBefore (copy : List UInt8) (stop nextrank : ℕ) : Option Bool :=
  if nextrank < stop then copy[nextrank]?.map (· == 0) else some false

/-- `while (nextrank < stop && waitlistcopy[nextrank] == 0) nextrank++` -/
abbrev Scan (copy : List UInt8) (stop : ℕ) : ℕ → Option ℕ → Prop :=
  WhileLoop (zeroBefore copy stop) (· + 1)

/-- What comes of the search. -/
inductive SearchOutcome where
  /-- An index outside `waitlistcopy`. -/
  | outside
  /-- `assert(nextrank != mutex->myrank)` fails. -/
  | assertion
  /-- No byte is set, and nobody is notified. -/
  | silent
  /-- `MPI_Send` to `nextrank`. -/
  | notifies (nextrank : ℕ)
deriving DecidableEq

/-- The search of `MPIMUTEX_Unlock`, from the emptiness test to `MPI_Send`. -/
def UnlockSearch (nprocs myrank : ℕ) (copy : List UInt8) (outcome : SearchOutcome) : Prop :=
  ∃ tested, Scan copy (nprocs - 1) 0 tested ∧ match tested with
    | none => outcome = .outside
    | some i =>
        if i < nprocs - 1 then
          ∃ after, Scan copy (nprocs - 1) myrank after ∧ match after with
            | none => outcome = .outside
            | some nextrank =>
                -- nextrank is off by one from skipping local byte
                if nextrank < nprocs - 1 then outcome = .notifies (nextrank + 1)
                else ∃ before, Scan copy myrank 0 before ∧ match before with
                  | none => outcome = .outside
                  | some nextrank =>
                      if nextrank = myrank then outcome = .assertion
                      else outcome = .notifies nextrank
        else outcome = .silent

/-- The rank that an index of `waitlistcopy` stands for. -/
def rankOf (myrank i : ℕ) : ℕ := if i < myrank then i else i + 1

/-- The loops are `skipZeros`. -/
theorem scan_iff {copy : List UInt8} {stop i : ℕ} {outcome : Option ℕ} :
    Scan copy stop i outcome ↔ skipZeros copy (stop - i) i = outcome := by
  refine WhileLoop.iff_of_equation (fun i => skipZeros copy (stop - i) i) (fun i => stop - i)
    (fun i => ?_) fun i holds => ?_
  · rcases Nat.lt_or_ge i stop with inside | past
    · have split : stop - i = stop - (i + 1) + 1 := by omega
      rw [split, skipZeros, zeroBefore, if_pos inside]
      cases copy[i]? with
      | none => rfl
      | some byte =>
          by_cases zero : byte = 0
          · simp [zero]
          · have stops : (byte == 0) = false := beq_false_of_ne zero
            simp [zero, stops]
    · rw [Nat.sub_eq_zero_of_le past, zeroBefore, if_neg (Nat.not_lt_of_ge past), skipZeros]
  · have inside : i < stop := by
      by_contra past
      rw [zeroBefore, if_neg past] at holds
      cases holds
    omega

/-- The search has one outcome, that of `nextrank` if some byte is not zero. -/
theorem unlockSearch_iff {nprocs myrank next i : ℕ} {copy : List UInt8}
    (tested : firstWaiter nprocs copy = some i) (some_byte : i < nprocs - 1)
    (chosen : nextrank nprocs myrank copy = some next) {outcome : SearchOutcome} :
    UnlockSearch nprocs myrank copy outcome ↔ outcome = .notifies next := by
  obtain ⟨after, foundAfter, chosen⟩ := Option.bind_eq_some_iff.mp chosen
  simp only [UnlockSearch, scan_iff, exists_eq_left', Nat.sub_zero]
  rw [firstWaiter] at tested
  simp only [tested, foundAfter, if_pos some_byte]
  split at chosen
  · next inside =>
      rw [if_pos inside, Option.some.inj chosen]
  · next past =>
      obtain ⟨before, foundBefore, chosen⟩ := Option.bind_eq_some_iff.mp chosen
      rw [if_neg past]
      simp only [foundBefore]
      split at chosen
      · cases chosen
      · next other => rw [if_neg other, Option.some.inj chosen]

/-- The byte of a rank is at its index. -/
theorem entry_rankOf (myrank : ℕ) (copy : List UInt8) (i : ℕ) :
    entry myrank copy (rankOf myrank i) = copy.getD i 0 := by
  rw [rankOf]
  split
  · next before => exact entry_before copy before
  · exact entry_after copy (by omega)

/-- Every other rank has an index. -/
theorem exists_rankOf {nprocs myrank rank : ℕ} (bounded : myrank < nprocs)
    (inside : rank < nprocs) (other : rank ≠ myrank) :
    ∃ i < nprocs - 1, rankOf myrank i = rank := by
  rcases Nat.lt_or_gt_of_ne other with before | after
  · exact ⟨rank, by omega, if_pos before⟩
  · refine ⟨rank - 1, by omega, ?_⟩
    rw [rankOf, if_neg (by omega)]
    omega

theorem rankOf_ne (myrank i : ℕ) : rankOf myrank i ≠ myrank := by
  unfold rankOf
  split <;> omega

theorem rankOf_lt {nprocs myrank i : ℕ} (bounded : myrank < nprocs) (inside : i < nprocs - 1) :
    rankOf myrank i < nprocs := by
  unfold rankOf
  split <;> omega

/-- Where some byte is not zero, the search ends, stays inside `waitlistcopy`, passes the
assertion and notifies the first waiter after `myrank` in cyclic order. -/
theorem unlock_search (nprocs myrank : ℕ) (copy : List UInt8) (bounded : myrank < nprocs)
    (length : copy.length = nprocs - 1) (waiter : ∃ byte ∈ copy, byte ≠ 0) :
    ∃ i < nprocs - 1, (∀ outcome, UnlockSearch nprocs myrank copy outcome ↔
        outcome = .notifies (rankOf myrank i)) ∧
      copy.getD i 0 ≠ 0 ∧ ∀ j < nprocs - 1, copy.getD j 0 ≠ 0 →
        cyclicDistance nprocs myrank (rankOf myrank i) ≤
          cyclicDistance nprocs myrank (rankOf myrank j) := by
  have index : ∃ k < nprocs - 1, copy.getD k 0 ≠ 0 := by
    obtain ⟨byte, listed, nonzero⟩ := waiter
    obtain ⟨k, inside, rfl⟩ := List.getElem_of_mem listed
    refine ⟨k, length ▸ inside, ?_⟩
    rwa [List.getD_eq_getElem?_getD, List.getElem?_eq_getElem inside]
  obtain ⟨first, tested, found⟩ := firstWaiter_spec length
  obtain ⟨next, chosen, below, other, nonzero, nearest⟩ := nextrank_spec bounded length
    ((exists_index_iff_exists_entry copy bounded).mp index)
  obtain ⟨i, inside, rfl⟩ := exists_rankOf bounded below other
  rw [entry_rankOf] at nonzero
  refine ⟨i, inside, fun outcome => unlockSearch_iff tested (found.mpr index) chosen, nonzero,
    fun j inside' nonzero' => ?_⟩
  exact nearest _ (rankOf_lt bounded inside') (rankOf_ne myrank j)
    (by rwa [entry_rankOf])

/-- Rank 2 of four, where the only waiter is rank 1. -/
theorem unlock_search_one : ∃ i < 4 - 1, (∀ outcome, UnlockSearch 4 2 [0, 1, 0] outcome ↔
    outcome = .notifies (rankOf 2 i)) ∧ ([0, 1, 0] : List UInt8).getD i 0 ≠ 0 ∧
      ∀ j < 4 - 1, ([0, 1, 0] : List UInt8).getD j 0 ≠ 0 →
        cyclicDistance 4 2 (rankOf 2 i) ≤ cyclicDistance 4 2 (rankOf 2 j) :=
  unlock_search 4 2 [0, 1, 0] (by decide) (by decide) ⟨1, by decide, by decide⟩

end HandsOn.Mutex
