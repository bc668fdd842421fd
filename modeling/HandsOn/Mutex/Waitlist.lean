import Mathlib.Data.List.Basic

/-!
# The waitlist and the search for the next waiter

`waitlistcopy` has the `nprocs-1` bytes of the other ranks, so an index of it is
one below the rank it stands for from the caller's own rank on. `skipZeros` is
the loop all three searches of the source share; it returns `none` where the
source would index outside its array.
-/

namespace HandsOn.Mutex

/-- The bytes `MPI_Get` delivers through `waitlisttype`: every rank's byte but
the caller's own, in rank order. -/
def waitlistcopy (myrank : ℕ) (waitlist : List UInt8) : List UInt8 :=
  waitlist.eraseIdx myrank

/-- `while (i < stop && copy[i] == 0) i++`, with `remaining = stop - i`. -/
def skipZeros (copy : List UInt8) : (remaining i : ℕ) → Option ℕ
  | 0, i => some i
  | remaining + 1, i =>
      match copy[i]? with
      | none => none
      | some byte => if byte = 0 then skipZeros copy remaining (i + 1) else some i

/-- The first index of a non-zero byte, or `nprocs - 1`: the emptiness test of
`MPIMUTEX_Lock` and `MPIMUTEX_Unlock`. -/
def firstWaiter (nprocs : ℕ) (copy : List UInt8) : Option ℕ :=
  skipZeros copy (nprocs - 1) 0

/-- The search of `MPIMUTEX_Unlock`: from the rank after ours, whose index is off
by one from skipping the local byte, then from rank 0. `none` is an index outside
`waitlistcopy` or the failed assertion. -/
def nextrank (nprocs myrank : ℕ) (copy : List UInt8) : Option ℕ :=
  (skipZeros copy (nprocs - 1 - myrank) myrank).bind fun nextrank =>
    if nextrank < nprocs - 1 then
      some (nextrank + 1)
    else
      (skipZeros copy myrank 0).bind fun nextrank =>
        if nextrank = myrank then none else some nextrank

/-- The byte of rank `rank` in a copy fetched by `myrank`. -/
def entry (myrank : ℕ) (copy : List UInt8) (rank : ℕ) : UInt8 :=
  copy.getD (if rank < myrank then rank else rank - 1) 0

/-- How many ranks after `origin`, counting cyclically, rank `rank` comes. -/
def cyclicDistance (nprocs origin rank : ℕ) : ℕ :=
  if origin ≤ rank then rank - origin else nprocs + rank - origin

/-- In a fetched copy, an entry is the byte of that rank in the waitlist. -/
theorem entry_waitlistcopy {myrank rank : ℕ} (waitlist : List UInt8)
    (other : rank ≠ myrank) :
    entry myrank (waitlistcopy myrank waitlist) rank = waitlist.getD rank 0 := by
  unfold entry waitlistcopy
  by_cases before : rank < myrank
  · simp [before, List.getD_eq_getElem?_getD, List.getElem?_eraseIdx]
  · have after : ¬ rank - 1 < myrank := by omega
    have shift : rank - 1 + 1 = rank := by omega
    simp [before, after, shift, List.getD_eq_getElem?_getD, List.getElem?_eraseIdx]

/-- A fetched copy has one byte less than the waitlist. -/
theorem length_waitlistcopy {myrank : ℕ} {waitlist : List UInt8}
    (bounded : myrank < waitlist.length) :
    (waitlistcopy myrank waitlist).length = waitlist.length - 1 := by
  simp [waitlistcopy, List.length_eraseIdx, bounded]

/-- The loop ends inside its bounds, past zero bytes only, and at a non-zero
byte unless it ran to its end. -/
theorem skipZeros_spec (copy : List UInt8) (remaining i : ℕ)
    (bounded : i + remaining ≤ copy.length) :
    ∃ j, skipZeros copy remaining i = some j ∧ i ≤ j ∧ j ≤ i + remaining ∧
      (∀ k, i ≤ k → k < j → copy.getD k 0 = 0) ∧
      (j < i + remaining → copy.getD j 0 ≠ 0) := by
  induction remaining generalizing i with
  | zero => exact ⟨i, rfl, Nat.le_refl i, by omega, by omega, by omega⟩
  | succ remaining ih =>
      have inside : i < copy.length := by omega
      have here : copy[i]? = some copy[i] := List.getElem?_eq_getElem inside
      have value : copy.getD i 0 = copy[i] := by simp [List.getD_eq_getElem?_getD, here]
      by_cases zero : copy[i] = 0
      · obtain ⟨j, found, lower, upper, skipped, stopped⟩ := ih (i + 1) (by omega)
        refine ⟨j, ?_, by omega, by omega, fun k from_i below => ?_, fun short => ?_⟩
        · simpa [skipZeros, here, zero] using found
        · rcases Nat.eq_or_lt_of_le from_i with rfl | later
          · rw [value, zero]
          · exact skipped k later below
        · exact stopped (by omega)
      · refine ⟨i, ?_, Nat.le_refl i, by omega, by omega, fun _ => ?_⟩
        · simp [skipZeros, here, zero]
        · rw [value]
          exact zero

/-- The emptiness test reads within the copy and finds an index below
`nprocs - 1` exactly when some byte is non-zero. -/
theorem firstWaiter_spec {nprocs : ℕ} {copy : List UInt8}
    (length : copy.length = nprocs - 1) :
    ∃ i, firstWaiter nprocs copy = some i ∧
      (i < nprocs - 1 ↔ ∃ k < nprocs - 1, copy.getD k 0 ≠ 0) := by
  obtain ⟨i, found, _, upper, skipped, stopped⟩ :=
    skipZeros_spec copy (nprocs - 1) 0 (by omega)
  refine ⟨i, found, fun inside => ⟨i, inside, stopped (by omega)⟩, ?_⟩
  rintro ⟨k, bounded, nonzero⟩
  by_contra outside
  exact nonzero (skipped k (Nat.zero_le k) (by omega))

/-- Some index of the copy is non-zero exactly when some other rank's entry is. -/
theorem exists_index_iff_exists_entry {nprocs myrank : ℕ} (copy : List UInt8)
    (bounded : myrank < nprocs) :
    (∃ k < nprocs - 1, copy.getD k 0 ≠ 0) ↔
      ∃ rank < nprocs, rank ≠ myrank ∧ entry myrank copy rank ≠ 0 := by
  constructor
  · rintro ⟨k, inside, nonzero⟩
    by_cases before : k < myrank
    · exact ⟨k, by omega, by omega, by simpa [entry, before] using nonzero⟩
    · refine ⟨k + 1, by omega, by omega, ?_⟩
      have after : ¬ k + 1 < myrank := by omega
      simpa [entry, after] using nonzero
  · rintro ⟨rank, inside, other, nonzero⟩
    refine ⟨if rank < myrank then rank else rank - 1, ?_, nonzero⟩
    split <;> omega

theorem entry_before {myrank rank : ℕ} (copy : List UInt8) (before : rank < myrank) :
    entry myrank copy rank = copy.getD rank 0 := by
  rw [entry, if_pos before]

theorem entry_after {myrank rank : ℕ} (copy : List UInt8) (after : myrank < rank) :
    entry myrank copy rank = copy.getD (rank - 1) 0 := by
  rw [entry, if_neg (Nat.not_lt_of_gt after)]

section Search

variable {nprocs myrank : ℕ} {copy : List UInt8}

/-- The search finds the first waiter after `myrank` if there is one. -/
theorem nextrank_of_after (length : copy.length = nprocs - 1)
    (waiter : ∃ rank < nprocs, myrank < rank ∧ entry myrank copy rank ≠ 0) :
    ∃ next, nextrank nprocs myrank copy = some next ∧ next < nprocs ∧ myrank < next ∧
      entry myrank copy next ≠ 0 ∧
      ∀ rank, myrank < rank → rank < next → entry myrank copy rank = 0 := by
  obtain ⟨rank, below, after, nonzero⟩ := waiter
  obtain ⟨i, found, lower, upper, skipped, stopped⟩ :=
    skipZeros_spec copy (nprocs - 1 - myrank) myrank (by omega)
  have inside : i < nprocs - 1 := by
    by_contra
    rw [entry_after copy after] at nonzero
    exact nonzero (skipped (rank - 1) (by omega) (by omega))
  refine ⟨i + 1, by simp [nextrank, found, inside], by omega, by omega, ?_, ?_⟩
  · rw [entry_after copy (by omega)]
    exact stopped (by omega)
  · intro rank after before
    rw [entry_after copy after]
    exact skipped (rank - 1) (by omega) (by omega)

/-- It finds the first waiter before `myrank` if there is none after. -/
theorem nextrank_of_before (bounded : myrank < nprocs) (length : copy.length = nprocs - 1)
    (noneAfter : ∀ rank < nprocs, myrank < rank → entry myrank copy rank = 0)
    (waiter : ∃ rank < myrank, entry myrank copy rank ≠ 0) :
    ∃ next, nextrank nprocs myrank copy = some next ∧ next < myrank ∧
      entry myrank copy next ≠ 0 ∧ ∀ rank < next, entry myrank copy rank = 0 := by
  obtain ⟨rank, before, nonzero⟩ := waiter
  obtain ⟨i, foundAfter, lower, upper, _, stopped⟩ :=
    skipZeros_spec copy (nprocs - 1 - myrank) myrank (by omega)
  have none : ¬ i < nprocs - 1 := by
    intro inside
    have zero := noneAfter (i + 1) (by omega) (by omega)
    rw [entry_after copy (by omega)] at zero
    exact stopped (by omega) zero
  obtain ⟨j, found, _, upper', skipped, stopped'⟩ := skipZeros_spec copy myrank 0 (by omega)
  have inside : j < myrank := by
    by_contra
    rw [entry_before copy before] at nonzero
    exact nonzero (skipped rank (Nat.zero_le rank) (by omega))
  refine ⟨j, ?_, inside, ?_, ?_⟩
  · simp [nextrank, foundAfter, none, found, Nat.ne_of_lt inside]
  · rw [entry_before copy inside]
    exact stopped' (by omega)
  · intro rank before
    rw [entry_before copy (Nat.lt_trans before inside)]
    exact skipped rank (Nat.zero_le rank) before

/-- The search of `MPIMUTEX_Unlock` finds the waiter nearest after `myrank`. -/
theorem nextrank_spec (bounded : myrank < nprocs) (length : copy.length = nprocs - 1)
    (waiter : ∃ rank < nprocs, rank ≠ myrank ∧ entry myrank copy rank ≠ 0) :
    ∃ next, nextrank nprocs myrank copy = some next ∧ next < nprocs ∧ next ≠ myrank ∧
      entry myrank copy next ≠ 0 ∧
      ∀ rank < nprocs, rank ≠ myrank → entry myrank copy rank ≠ 0 →
        cyclicDistance nprocs myrank next ≤ cyclicDistance nprocs myrank rank := by
  by_cases after : ∃ rank < nprocs, myrank < rank ∧ entry myrank copy rank ≠ 0
  · obtain ⟨next, chosen, below, later, nonzero, skipped⟩ := nextrank_of_after length after
    refine ⟨next, chosen, below, Nat.ne_of_gt later, nonzero, fun rank inside other waiting => ?_⟩
    have notBetween : ¬ (myrank < rank ∧ rank < next) := fun ⟨after, before⟩ =>
      waiting (skipped rank after before)
    unfold cyclicDistance
    split_ifs <;> omega
  · push Not at after
    obtain ⟨rank, below, other, nonzero⟩ := waiter
    have before : rank < myrank := Nat.lt_of_le_of_ne
      (Nat.le_of_not_lt fun later => nonzero (after rank below later)) other
    obtain ⟨next, chosen, earlier, nonzero, skipped⟩ :=
      nextrank_of_before bounded length after ⟨rank, before, nonzero⟩
    refine ⟨next, chosen, Nat.lt_trans earlier bounded, Nat.ne_of_lt earlier, nonzero,
      fun rank inside other waiting => ?_⟩
    have notAfter : ¬ myrank < rank := fun later => waiting (after rank inside later)
    have notBefore : ¬ rank < next := fun before => waiting (skipped rank before)
    unfold cyclicDistance
    split_ifs <;> omega

end Search

end HandsOn.Mutex
