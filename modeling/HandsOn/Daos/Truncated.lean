import HandsOn.Daos.ShortReads

/-!
# Truncated validation files

The counter in its header is what tells a record from the one before. A file that is cut before
the last counter is rejected; one that is cut behind it, or in those of its bytes that are as
in the counter before, is accepted.
-/

namespace HandsOn.Daos

open Mpi Semantics

variable {int : Native Int32 4} {header : ArrayHeader} {content : List UInt8} {calls : Calls}

/-- The file holds all records, and the readers have read them. -/
structure Complete (header : ArrayHeader) (content : List UInt8) (nprocs : ℕ)
    (readings : ℕ → Reading) : Prop where
  long : nprocs * (header.iter * recordSize header) ≤ content.length
  own : ∀ rank < nprocs, ∀ i < header.iter,
    (recordStart header rank i, 12) ∈ (readings rank).transfers ∧
      (recordStart header rank i + 12, header.xdim * header.ydim * 4) ∈ (readings rank).transfers

/-- If all ranks finish, the readers have read a complete file. -/
def FinishedIsComplete (header : ArrayHeader) (content : List UInt8) (nprocs : ℕ)
    (read : ℕ → Except Failure Reading) : Prop :=
  ∀ readings : ℕ → Reading, (∀ rank < nprocs, read rank = .ok (readings rank)) →
    Complete header content nprocs readings

/-- The last record of the last rank. -/
def lastStart (header : ArrayHeader) (nprocs : ℕ) : ℕ :=
  recordStart header (nprocs - 1) (header.iter - 1)

/-- The file is cut where no check notices. -/
structure Undetected (int : Native Int32 4) (header : ArrayHeader) (content : List UInt8)
    (nprocs : ℕ) : Prop where
  short : content.length < nprocs * (header.iter * recordSize header)
  /-- What the file has of a header is right. -/
  headers : ∀ rank < nprocs, ∀ i < header.iter,
    (content.drop (recordStart header rank i)).take 12 <+: int.encodeAll (expected header i).fields
  /-- What it does not have of the last header is as in the header before. -/
  counter : (int.encodeAll (expected header (header.iter - 1)).fields).drop
      (content.length - lastStart header nprocs) =
    (int.encodeAll (earlier header (header.iter - 1)).fields).drop
      (content.length - lastStart header nprocs)

theorem totalsz_eq : header.totalsz = header.iter * recordSize header := by
  rw [ArrayHeader.totalsz, recordSize]
  ring

/-- Records other than the last one end where it starts at the latest. -/
theorem recordStart_le_last {nprocs rank i : ℕ} (inRanks : rank < nprocs)
    (inside : i < header.iter) :
    rank = nprocs - 1 ∧ i = header.iter - 1 ∨
      recordStart header rank i + recordSize header ≤ lastStart header nprocs := by
  rw [← recordStart_succ, lastStart, recordStart, recordStart, totalsz_eq]
  rcases Nat.lt_or_ge rank (nprocs - 1) with before | last
  · have ranks := Nat.mul_le_mul_right (header.iter * recordSize header) before
    have records : (i + 1) * recordSize header ≤ header.iter * recordSize header :=
      Nat.mul_le_mul_right _ inside
    rw [Nat.succ_mul] at ranks
    exact .inr (by omega)
  · have same : rank = nprocs - 1 := by omega
    rcases Nat.lt_or_ge i (header.iter - 1) with earlier | final
    · have records : (i + 1) * recordSize header ≤ (header.iter - 1) * recordSize header :=
        Nat.mul_le_mul_right _ earlier
      exact .inr (by rw [same]; omega)
    · exact .inl ⟨same, by omega⟩

/-- The counters of two records in a row differ. -/
theorem expected_ne_earlier (header : ArrayHeader) (several : 1 < header.iter) :
    expected header (header.iter - 1) ≠ earlier header (header.iter - 1) := by
  intro same
  have bounded := header.iter_lt
  obtain ⟨below, count⟩ := Nat.exists_eq_add_of_lt several
  rw [count, Nat.add_sub_cancel, Nat.add_comm 1 below] at same
  have counters := congrArg (fun data : Science => data.iter.toInt) same
  simp only [expected, earlier] at counters
  rw [Int32.toInt_ofNat_of_lt (by omega), Int32.toInt_ofNat_of_lt (by omega)] at counters
  omega

theorem drop_eq_of_le {first second : List UInt8} {count more : ℕ} (le : count ≤ more)
    (same : first.drop count = second.drop count) : first.drop more = second.drop more := by
  obtain ⟨rest, rfl⟩ := Nat.exists_eq_add_of_le le
  rw [← List.drop_drop, same, List.drop_drop]

/-- Every header is accepted exactly if those in the file are right and the cut, if any, leaves
enough of the last one. -/
theorem all_accepted_iff {nprocs : ℕ} (positive : 0 < nprocs) :
    (∀ rank < nprocs, ∀ i < header.iter, Accepted int header content rank i) ↔
      (∀ rank < nprocs, ∀ i < header.iter,
        (content.drop (recordStart header rank i)).take 12 <+:
          int.encodeAll (expected header i).fields) ∧
      (int.encodeAll (expected header (header.iter - 1)).fields).drop
          (content.length - lastStart header nprocs) =
        (int.encodeAll (earlier header (header.iter - 1)).fields).drop
          (content.length - lastStart header nprocs) := by
  have lastIteration : header.iter - 1 < header.iter := Nat.sub_one_lt header.iter_pos.ne'
  constructor
  · intro accepted
    refine ⟨fun rank inRanks i inside =>
      (accepted_iff rank i).mp (accepted rank inRanks i inside) |>.1, ?_⟩
    have last := accepted (nprocs - 1) (Nat.sub_one_lt positive.ne') _ lastIteration
    exact ((accepted_iff _ _).mp last).2
  · rintro ⟨headers, counter⟩ rank inRanks i inside
    refine (accepted_iff rank i).mpr ⟨headers rank inRanks i inside, ?_⟩
    rcases recordStart_le_last inRanks inside with ⟨rfl, rfl⟩ | before
    · exact counter
    · rcases Nat.lt_or_ge 1 header.iter with several | single
      · -- The cut is behind the start of the last header, where the counters differ.
        have behind : lastStart header nprocs < content.length := by
          refine Nat.lt_of_not_le fun past => expected_ne_earlier header several ?_
          rw [Nat.sub_eq_zero_of_le past] at counter
          exact (encodeAll_fields_inj int).mp counter
        rw [recordSize] at before
        rw [List.drop_eq_nil_of_le (by rw [length_encodeAll_fields]; omega),
          List.drop_eq_nil_of_le (by rw [length_encodeAll_fields]; omega)]
      · -- All headers are first ones, and the last one is cut earliest.
        obtain rfl : i = header.iter - 1 := by omega
        exact drop_eq_of_le (by omega) counter

/-- If a header is cut where it starts to differ, a truncated file is accepted. -/
theorem exists_readings {nprocs : ℕ} {calls : ℕ → Calls} {initial : Int}
    (undetected : Undetected int header content nprocs)
    (succeed : ∀ rank < nprocs, ¬ (calls rank).Fails header.iter) :
    ∃ readings : ℕ → Reading, ∀ rank < nprocs,
      readData int header content (calls rank) initial rank = .ok (readings rank) := by
  have positive : 0 < nprocs := by
    refine Nat.pos_of_ne_zero fun none => ?_
    have short := undetected.short
    rw [none, Nat.zero_mul] at short
    exact absurd short (Nat.not_lt_zero _)
  have accepted := (all_accepted_iff positive).mpr ⟨undetected.headers, undetected.counter⟩
  have each : ∀ rank, ∃ reading, rank < nprocs →
      readData int header content (calls rank) initial rank = .ok reading := by
    intro rank
    by_cases inRanks : rank < nprocs
    · obtain ⟨reading, finished⟩ := (exists_readData_iff initial rank).mpr
        ⟨succeed rank inRanks, accepted rank inRanks⟩
      exact ⟨reading, fun _ => finished⟩
    · exact ⟨⟨0, header.data, header.array, []⟩, fun inRanks' => absurd inRanks' inRanks⟩
  choose readings finished using each
  exact ⟨readings, finished⟩

theorem not_finishedIsComplete {nprocs : ℕ} {calls : ℕ → Calls} {initial : Int}
    (undetected : Undetected int header content nprocs)
    (succeed : ∀ rank < nprocs, ¬ (calls rank).Fails header.iter) :
    ¬ FinishedIsComplete header content nprocs
      fun rank => readData int header content (calls rank) initial rank := by
  intro complete
  obtain ⟨readings, finished⟩ := exists_readings undetected succeed
  exact absurd undetected.short (complete readings finished).long.not_gt

/-- Readers that finish have read a complete file, unless it is cut where no check notices. -/
theorem finishedIsComplete {nprocs : ℕ} {calls : ℕ → Calls} {initial : Int}
    (noticed : (∃ rank < nprocs, (calls rank).Fails header.iter) ∨
      ¬ Undetected int header content nprocs) :
    FinishedIsComplete header content nprocs
      fun rank => readData int header content (calls rank) initial rank := by
  intro readings finished
  have each : ∀ rank < nprocs, _ := fun rank inRanks =>
    (exists_readData_iff initial rank).mp ⟨readings rank, finished rank inRanks⟩
  have long : nprocs * (header.iter * recordSize header) ≤ content.length := by
    rcases noticed with ⟨rank, inRanks, fails⟩ | noticed
    · exact absurd fails (each rank inRanks).1
    · rcases Nat.eq_zero_or_pos nprocs with rfl | positive
      · rw [Nat.zero_mul]
        exact Nat.zero_le _
      · obtain ⟨headers, counter⟩ := (all_accepted_iff positive).mp
          fun rank inRanks => (each rank inRanks).2
        exact Nat.le_of_not_lt fun short => noticed ⟨short, headers, counter⟩
  refine ⟨long, fun rank inRanks i inside => ?_⟩
  refine transfers_of_le (le_trans ?_ long) (finished rank inRanks) inside
  rw [recordStart, totalsz_eq, ← Nat.succ_mul]
  exact Nat.mul_le_mul_right _ inRanks

/-- Both readers accept only complete files if and only if a call of some rank fails or the
file is not cut where no check notices. -/
theorem finishedIsComplete_iff (int : Native Int32 4) (header : ArrayHeader) (content : List UInt8)
    (nprocs : ℕ) (calls : ℕ → Calls) (initial : Int) :
    (FinishedIsComplete header content nprocs
        (fun rank => posixReadData int header content (calls rank) initial rank) ↔
      (∃ rank < nprocs, (calls rank).Fails header.iter) ∨
        ¬ Undetected int header content nprocs) ∧
    (FinishedIsComplete header content nprocs
        (fun rank => mpiioReadData int header content (calls rank) initial rank) ↔
      (∃ rank < nprocs, (calls rank).Fails header.iter) ∨
        ¬ Undetected int header content nprocs) := by
  have readers : FinishedIsComplete header content nprocs
      (fun rank => readData int header content (calls rank) initial rank) ↔
      (∃ rank < nprocs, (calls rank).Fails header.iter) ∨
        ¬ Undetected int header content nprocs := by
    refine ⟨fun complete => ?_, finishedIsComplete⟩
    by_contra! unnoticed
    exact not_finishedIsComplete unnoticed.2 unnoticed.1 complete
  exact ⟨readers, readers⟩

/-! ### The programs' own files -/

theorem length_document (nprocs : ℕ) :
    (document int header nprocs).length = nprocs * (header.iter * recordSize header) := by
  rw [document, List.length_flatMap, List.map_congr_left fun _ _ => length_records int header,
    List.map_const', List.length_range, List.sum_replicate_nat, totalsz_eq]

/-- The headers in a beginning of the records that the writers leave. -/
theorem headers_of_take (square : header.xdim = header.ydim) {nprocs rank i : ℕ}
    (inRanks : rank < nprocs) (inside : i < header.iter) (count : ℕ) :
    (((document int header nprocs).take count).drop (recordStart header rank i)).take 12 <+:
      int.encodeAll (expected header i).fields := by
  have stored : dataAt header i = expected header i := by
    rw [dataAt, ArrayHeader.data, expected, square]
  have ordered : ∀ position : ℕ, fileOf (document int header nprocs) position =
      (document int header nprocs)[position]? := fileOf_natCast _
  have holds := (has_append.mp (has_record ordered inRanks inside)).1
  rw [stored, ← Nat.cast_add, has_fileOf_natCast, List.prefix_iff_eq_take,
    length_encodeAll_fields] at holds
  rw [List.drop_take, List.take_take, Nat.min_comm, ← List.take_take]
  exact holds ▸ List.take_prefix _ _

/-- A beginning of the writers' file that holds the last header is accepted. -/
theorem undetected_take (square : header.xdim = header.ydim) {nprocs count : ℕ}
    (short : count < nprocs * (header.iter * recordSize header))
    (last : lastStart header nprocs + 12 ≤ count) :
    Undetected int header ((document int header nprocs).take count) nprocs := by
  have length : ((document int header nprocs).take count).length = count := by
    rw [List.length_take, length_document, Nat.min_eq_left short.le]
  refine ⟨by rwa [length],
    fun rank inRanks i inside => headers_of_take square inRanks inside count, ?_⟩
  rw [length, List.drop_eq_nil_of_le (by rw [length_encodeAll_fields]; omega),
    List.drop_eq_nil_of_le (by rw [length_encodeAll_fields]; omega)]

/-- Calls that all succeed. -/
def succeed : Calls := ⟨false, false, fun _ => false, fun _ => false, false⟩

/-- The file of one rank, without its last byte. -/
def cutFile : List UInt8 := (document littleEndianInt arrayHeader 1).take 36119

/-- It is accepted. -/
theorem not_finishedIsComplete_cutFile :
    cutFile.length = 36119 ∧
      ¬ FinishedIsComplete arrayHeader cutFile 1
        (fun rank => posixReadData littleEndianInt arrayHeader cutFile succeed 0 rank) ∧
      ¬ FinishedIsComplete arrayHeader cutFile 1
        (fun rank => mpiioReadData littleEndianInt arrayHeader cutFile succeed 0 rank) := by
  have undetected : Undetected littleEndianInt arrayHeader cutFile 1 :=
    undetected_take rfl (by decide) (by decide)
  have succeeds : ∀ rank < 1, ¬ succeed.Fails arrayHeader.iter := fun _ _ =>
    (succeed.not_fails_iff _).mpr ⟨⟨rfl, rfl, rfl⟩, fun _ _ => ⟨rfl, rfl⟩⟩
  have incomplete : ¬ FinishedIsComplete arrayHeader cutFile 1
      (fun rank => readData littleEndianInt arrayHeader cutFile succeed 0 rank) :=
    not_finishedIsComplete undetected succeeds
  refine ⟨?_, incomplete, incomplete⟩
  rw [cutFile, List.length_take, length_document]
  rfl

/-- The last counter of `array.h` differs from the one before in its first byte only. -/
theorem drop_counter_iff (count : ℕ) :
    (littleEndianInt.encodeAll (expected arrayHeader (arrayHeader.iter - 1)).fields).drop count =
        (littleEndianInt.encodeAll (earlier arrayHeader (arrayHeader.iter - 1)).fields).drop count ↔
      9 ≤ count := by
  rcases Nat.lt_or_ge count 12 with inside | past
  · have each : ∀ count < 12,
        (littleEndianInt.encodeAll (expected arrayHeader 9).fields).drop count =
            (littleEndianInt.encodeAll (earlier arrayHeader 9).fields).drop count ↔
          9 ≤ count := by decide
    exact each count inside
  · refine iff_of_true ?_ (by omega)
    rw [List.drop_eq_nil_of_le (by rwa [length_encodeAll_fields]),
      List.drop_eq_nil_of_le (by rwa [length_encodeAll_fields])]

/-- With `array.h` on a little-endian machine, nine bytes of the last header are enough. -/
theorem undetected_arrayHeader_iff (content : List UInt8) (nprocs : ℕ) :
    Undetected littleEndianInt arrayHeader content nprocs ↔
      lastStart arrayHeader nprocs + 9 ≤ content.length ∧ content.length < nprocs * 36120 ∧
      ∀ rank < nprocs, ∀ i < 10, (content.drop (recordStart arrayHeader rank i)).take 12 <+:
        littleEndianInt.encodeAll (expected arrayHeader i).fields := by
  have cut : 9 ≤ content.length - lastStart arrayHeader nprocs ↔
      lastStart arrayHeader nprocs + 9 ≤ content.length := by omega
  constructor
  · rintro ⟨short, headers, counter⟩
    exact ⟨cut.mp ((drop_counter_iff _).mp counter), short, headers⟩
  · rintro ⟨enough, short, headers⟩
    exact ⟨short, headers, (drop_counter_iff _).mpr (cut.mpr enough)⟩

end HandsOn.Daos
