import HandsOn.Sparse.CsrioRead

/-!
# What a failed read leaves behind

The regions and counts of `CSRIO_Read_rows` of `csrio-mpiio.c`. A rank allocates what its caller
does not give before the ranks agree on whether all of them have enough memory, and frees nothing
where they do not.
-/

namespace HandsOn.Sparse

open HandsOn.Mpi

universe u

/-- `*my_ja_p` and `*my_a_p` of a caller, and what `malloc` returns for them where it is called;
`none` is `NULL`. -/
structure Regions where
  myJaP : Option ℕ
  myAP : Option ℕ
  jaMalloc : Option ℕ
  aMalloc : Option ℕ

namespace Regions

variable (regions : Regions)

/-- `*my_ja_p` after the allocations. -/
def jaAfter : Option ℕ := if regions.myJaP = none then regions.jaMalloc else regions.myJaP

/-- `*my_a_p` after the allocations. -/
def aAfter : Option ℕ := if regions.myAP = none then regions.aMalloc else regions.myAP

/-- What the call has allocated, and never frees. -/
def allocated : List ℕ :=
  (if regions.myJaP = none then regions.jaMalloc.toList else []) ++
    (if regions.myAP = none then regions.aMalloc.toList else [])

/-- `my_mem_ok` -/
def myMemOk (myNz count : Int32) : Bool :=
  (myNz = 0 ∨ myNz ≥ count) && regions.aAfter.isSome && regions.jaAfter.isSome

/-- Nothing is allocated: the caller gives each region, or `malloc` fails. -/
structure Untouched : Prop where
  myJaP : regions.myJaP ≠ none ∨ regions.jaMalloc = none
  myAP : regions.myAP ≠ none ∨ regions.aMalloc = none

theorem untouched_iff_and : regions.Untouched ↔
    (regions.myJaP ≠ none ∨ regions.jaMalloc = none) ∧
      (regions.myAP ≠ none ∨ regions.aMalloc = none) :=
  ⟨fun untouched => ⟨untouched.myJaP, untouched.myAP⟩, fun ⟨ja, a⟩ => ⟨ja, a⟩⟩

/-- The regions are as the caller has given them, and nothing remains allocated. -/
theorem untouched_iff : regions.Untouched ↔
    regions.jaAfter = regions.myJaP ∧ regions.aAfter = regions.myAP ∧ regions.allocated = [] := by
  rw [untouched_iff_and, jaAfter, aAfter, allocated]
  cases ja : regions.myJaP <;> cases a : regions.myAP <;> cases regions.jaMalloc <;>
    cases regions.aMalloc <;> simp

end Regions

/-- A rank of `CSRIO_Read_rows`. -/
structure Caller (Double : Type u) extends Reader Double, Regions

variable {Double : Type u}

/-- What the caller of a rank has after the call: the code, `none` for success, `*my_nz_p`,
`*my_ja_p`, `*my_a_p`, the regions that the call has allocated, and the number of entries that it
has read into each region. -/
structure Returned where
  code : Option ErrorCode
  myNz : Int32
  myJaP : Option ℕ
  myAP : Option ℕ
  allocated : List ℕ
  entries : ℕ

namespace Caller

variable (int : Native Int32 4) (file : File)

/-- `my_mem_ok` -/
def memOk (caller : Caller Double) : Bool :=
  caller.toRegions.myMemOk caller.myNz (caller.count int file)

/-- `CSRIO_Read_rows` on a rank, of which the file is opened and no read of it fails unless its
count is negative. -/
def readRows (nprocs : ℕ) (callers : ℕ → Caller Double) (rank : ℕ) : Returned :=
  let caller := callers rank
  let count := caller.count int file
  let allMemOk := (List.range nprocs).all fun rank => (callers rank).memOk int file
  let failed (code : ErrorCode) (myNz : Int32) : Returned :=
    { code := some code
      myNz := myNz
      myJaP := caller.jaAfter
      myAP := caller.aAfter
      allocated := caller.allocated
      entries := 0 }
  if !allMemOk then failed .errIo caller.myNz
  else if count < 0 then failed .errCount count
  else
    { code := none
      myNz := count
      myJaP := caller.jaAfter
      myAP := caller.aAfter
      allocated := caller.allocated
      entries := count.toNatClampNeg }

/-- Whether all ranks have enough memory. -/
def AllMemOk (nprocs : ℕ) (callers : ℕ → Caller Double) : Prop :=
  ∀ rank < nprocs, (callers rank).memOk int file = true

/-- After an error on some rank, every caller has what it had, and nothing remains allocated; a
caller that gives a maximum receives no more. -/
structure Retryable (nprocs : ℕ) (callers : ℕ → Caller Double) : Prop where
  onError : ∀ failed < nprocs, (readRows int file nprocs callers failed).code ≠ none →
    ∀ rank < nprocs, (readRows int file nprocs callers rank).myNz = (callers rank).myNz ∧
      (readRows int file nprocs callers rank).myJaP = (callers rank).myJaP ∧
      (readRows int file nprocs callers rank).myAP = (callers rank).myAP ∧
      (readRows int file nprocs callers rank).allocated = []
  onSuccess : ∀ rank < nprocs, (readRows int file nprocs callers rank).code = none →
    (callers rank).myNz ≠ 0 →
      ((readRows int file nprocs callers rank).entries : Int) ≤ (callers rank).myNz.toInt

/-! ### What a rank returns -/

section

variable {int : Native Int32 4} {file : File} {nprocs : ℕ} {callers : ℕ → Caller Double}

theorem allMemOk_iff : AllMemOk int file nprocs callers ↔
    ((List.range nprocs).all fun rank => (callers rank).memOk int file) = true := by
  simp [AllMemOk]

/-- Where some rank has too little memory, all ranks return an error. -/
theorem readRows_of_short (short : ¬ AllMemOk int file nprocs callers) (rank : ℕ) :
    (readRows int file nprocs callers rank).code = some .errIo ∧
      (readRows int file nprocs callers rank).myNz = (callers rank).myNz := by
  rw [allMemOk_iff, Bool.not_eq_true] at short
  simp [readRows, short]

/-- Where all ranks have enough memory, a rank returns an error if its count is negative. -/
theorem readRows_of_ok (enough : AllMemOk int file nprocs callers) (rank : ℕ) :
    ((readRows int file nprocs callers rank).code = none ↔ 0 ≤ (callers rank).count int file) ∧
      (readRows int file nprocs callers rank).myNz = (callers rank).count int file := by
  rw [allMemOk_iff] at enough
  by_cases negative : (callers rank).count int file < 0
  · simp [readRows, enough, negative, Int32.not_le.mpr negative]
  · simp [readRows, enough, negative, Int32.not_lt.mp negative]

/-- The regions after the call are those after the allocations, whatever the call returns. -/
theorem readRows_regions (rank : ℕ) :
    (readRows int file nprocs callers rank).myJaP = (callers rank).jaAfter ∧
      (readRows int file nprocs callers rank).myAP = (callers rank).aAfter ∧
      (readRows int file nprocs callers rank).allocated = (callers rank).allocated := by
  rw [readRows]
  split
  · exact ⟨rfl, rfl, rfl⟩
  · split <;> exact ⟨rfl, rfl, rfl⟩

theorem entries_le (rank : ℕ) : (readRows int file nprocs callers rank).entries ≤
    ((callers rank).count int file).toNatClampNeg := by
  rw [readRows]
  split
  · exact Nat.zero_le _
  · split
    · exact Nat.zero_le _
    · exact Nat.le_refl _

/-- A maximum that is given is at least the count. -/
theorem count_le_of_memOk {caller : Caller Double} (enough : caller.memOk int file = true)
    (given : caller.myNz ≠ 0) : caller.count int file ≤ caller.myNz := by
  simp only [memOk, Regions.myMemOk, Bool.and_eq_true, decide_eq_true_eq] at enough
  exact enough.1.1.resolve_left given

/-- No rank returns an error exactly if all have enough memory and no count is negative. -/
theorem none_fails_iff : (∀ rank < nprocs, (readRows int file nprocs callers rank).code = none) ↔
    AllMemOk int file nprocs callers ∧ ∀ rank < nprocs, 0 ≤ (callers rank).count int file := by
  constructor
  · intro succeeds
    have enough : AllMemOk int file nprocs callers := by
      intro rank inside
      by_contra short
      have failed := (readRows_of_short (fun enough => short (enough rank inside)) rank).1
      rw [succeeds rank inside] at failed
      cases failed
    exact ⟨enough, fun rank inside => (readRows_of_ok enough rank).1.mp (succeeds rank inside)⟩
  · rintro ⟨enough, nonneg⟩ rank inside
    exact (readRows_of_ok enough rank).1.mpr (nonneg rank inside)

/-- What a caller has is as before exactly if nothing is allocated and the count is not stored
or no different. -/
theorem unchanged_iff (rank : ℕ) :
    ((readRows int file nprocs callers rank).myNz = (callers rank).myNz ∧
      (readRows int file nprocs callers rank).myJaP = (callers rank).myJaP ∧
      (readRows int file nprocs callers rank).myAP = (callers rank).myAP ∧
      (readRows int file nprocs callers rank).allocated = []) ↔
    (callers rank).Untouched ∧ (AllMemOk int file nprocs callers →
      (callers rank).count int file = (callers rank).myNz) := by
  obtain ⟨ja, a, allocated⟩ := @readRows_regions Double int file nprocs callers rank
  rw [ja, a, allocated, Regions.untouched_iff]
  by_cases enough : AllMemOk int file nprocs callers
  · rw [(readRows_of_ok enough rank).2]
    exact ⟨fun ⟨same, regions⟩ => ⟨regions, fun _ => same⟩,
      fun ⟨regions, same⟩ => ⟨same enough, regions⟩⟩
  · rw [(readRows_of_short enough rank).2]
    exact ⟨fun ⟨_, regions⟩ => ⟨regions, fun holds => absurd holds enough⟩,
      fun ⟨regions, _⟩ => ⟨rfl, regions⟩⟩

/-- No more entries are read than a maximum that is given. -/
theorem entries_le_maximum {rank : ℕ} (inside : rank < nprocs)
    (success : (readRows int file nprocs callers rank).code = none)
    (given : (callers rank).myNz ≠ 0) :
    ((readRows int file nprocs callers rank).entries : Int) ≤ (callers rank).myNz.toInt := by
  have enough : AllMemOk int file nprocs callers := by
    by_contra short
    rw [(readRows_of_short short rank).1] at success
    cases success
  have nonneg := (readRows_of_ok enough rank).1.mp success
  have below := Int32.le_iff_toInt_le.mp (count_le_of_memOk (enough rank inside) given)
  have few : ((readRows int file nprocs callers rank).entries : Int) ≤
      ((callers rank).count int file).toNatClampNeg := by
    exact_mod_cast entries_le rank
  rw [Int32.cast_toNatClampNeg _ nonneg] at few
  exact few.trans below

/-- A caller that gives both regions has enough memory where its maximum is enough. -/
theorem memOk_of_given {caller : Caller Double} (ja : caller.myJaP ≠ none)
    (a : caller.myAP ≠ none) : caller.memOk int file = caller.toReader.myMemOk int file := by
  have jaOk : caller.jaAfter.isSome = true := by
    rw [Regions.jaAfter, if_neg ja, Option.isSome_iff_ne_none]
    exact ja
  have aOk : caller.aAfter.isSome = true := by
    rw [Regions.aAfter, if_neg a, Option.isSome_iff_ne_none]
    exact a
  rw [memOk, Regions.myMemOk, jaOk, aOk, Bool.and_true, Bool.and_true]
  rfl

/-- Where all callers give their regions, a rank succeeds as `csrioReadRows` does. -/
theorem success_iff_csrioReadRows {double : Native Double 8} {n nz : Int32}
    (given : ∀ rank < nprocs, (callers rank).myJaP ≠ none ∧ (callers rank).myAP ≠ none)
    (rank : ℕ) : (readRows int file nprocs callers rank).code = none ↔
      ∃ rows, csrioReadRows int double n nz file nprocs (fun rank => (callers rank).toReader) rank =
        .ok rows := by
  have same : ((List.range nprocs).all fun rank => (callers rank).memOk int file) =
      (List.range nprocs).all fun rank => (callers rank).toReader.myMemOk int file := by
    rw [Bool.eq_iff_iff, List.all_eq_true, List.all_eq_true]
    refine forall₂_congr fun other listed => ?_
    obtain ⟨ja, a⟩ := given other (List.mem_range.mp listed)
    rw [memOk_of_given ja a]
  rw [readRows, csrioReadRows, same]
  dsimp only
  split
  · simp
  · split <;> simp

end

/-- A file of three rows with 1, 2 and 1 entries. -/
def threeRows : File :=
  fileOf (List.replicate 80 32 ++ littleEndianInt.encodeAll [3, 4, 0, 1, 3, 0, 1, 2, 0] ++
    littleEndianWord.encodeAll [1, 1, 1, 1])

/-- Rank 0 reads the first row into regions that the call is to allocate, rank 1 the second row
into regions for one entry. -/
def rowReaders (rank : ℕ) : Caller UInt64 where
  rowStart := rank
  rowEnd := rank
  myNz := if rank = 0 then 0 else 1
  nextRowIa := 0
  myIa := fun _ => 0
  myJa := fun _ => 0
  myA := fun _ => 0
  myJaP := if rank = 0 then none else some 5
  myAP := if rank = 0 then none else some 6
  jaMalloc := some 1
  aMalloc := some 2

end Caller

end HandsOn.Sparse
