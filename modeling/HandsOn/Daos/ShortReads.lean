import HandsOn.Daos.Interoperate
import HandsOn.Semantics.Loop

/-!
# Short reads of validation files

`posix-read` and `mpiio-read` do not look at the number of bytes that a read transfers. Where
the file ends, `data` and `array` keep what they hold, and a header is accepted if what the file
has of it completes the one before.
-/

namespace HandsOn.Daos

open Mpi Semantics

/-- The calls of a rank whose failure the program sees. -/
structure Calls where
  openFails : Bool
  exscanFails : Bool
  scienceFails : ℕ → Bool
  arrayFails : ℕ → Bool
  closeFails : Bool

/-- Why a rank takes the error path. -/
inductive Failure where
  | call
  | header (error : ReadError)

/-- Where a reader is, its memory, and the position and number of the bytes of each transfer. -/
structure Reading where
  position : ℕ
  data : Science
  array : List Int32
  transfers : List (ℕ × ℕ)

/-- The number of bytes that `read` and `MPI_File_read` transfer. -/
def transferred (content : List UInt8) (position count : ℕ) : ℕ :=
  min count (content.length - position)

section Readers

variable (int : Native Int32 4) (header : ArrayHeader) (content : List UInt8) (calls : Calls)

/-- The read of `data`. -/
def Reading.readHeader (reading : Reading) : Reading :=
  let count := transferred content reading.position 12
  { reading with
    position := reading.position + count
    data := readScience int (fileOf content) reading.position reading.data
    transfers := reading.transfers ++ [(reading.position, count)] }

/-- The read of `array`. -/
def Reading.readArray (reading : Reading) : Reading :=
  let count := transferred content reading.position (header.xdim * header.ydim * 4)
  { reading with
    position := reading.position + count
    array := readElements int (fileOf content) reading.position reading.array
    transfers := reading.transfers ++ [(reading.position, count)] }

/-- The body of the loop of `read_data`. -/
def Reading.iteration (reading : Reading) (i : ℕ) : Except Failure Reading := do
  if calls.scienceFails i then throw .call
  let reading := reading.readHeader int content
  (check header i reading.data).mapError .header
  if calls.arrayFails i then throw .call
  return reading.readArray int header content

/-- `read_data` with the calls that can fail, and reads that can be short. -/
def readData (initial : Int) (rank : ℕ) : Except Failure Reading := do
  if calls.openFails then throw .call
  if calls.exscanFails then throw .call
  let sought := if 0 < rank then (header.off initial rank).toNat else 0
  let reading ← (List.range header.iter).foldlM (Reading.iteration int header content calls)
    ⟨sought, header.data, header.array, []⟩
  if calls.closeFails then throw .call
  return reading

/-- `read_data` of `posix-read.c` -/
def posixReadData (initial : Int) (rank : ℕ) : Except Failure Reading :=
  readData int header content calls initial rank

/-- `read_data` of `mpiio-read.c` -/
def mpiioReadData (initial : Int) (rank : ℕ) : Except Failure Reading :=
  readData int header content calls initial rank

end Readers

/-- A call fails that `read_data` makes if nothing else goes wrong. -/
def Calls.Fails (calls : Calls) (iter : ℕ) : Prop :=
  calls.openFails ∨ calls.exscanFails ∨
    (∃ i < iter, calls.scienceFails i ∨ calls.arrayFails i) ∨ calls.closeFails

theorem Calls.not_fails_iff (calls : Calls) (iter : ℕ) : ¬ calls.Fails iter ↔
    (calls.openFails = false ∧ calls.exscanFails = false ∧ calls.closeFails = false) ∧
      ∀ i < iter, calls.scienceFails i = false ∧ calls.arrayFails i = false := by
  simp only [Calls.Fails, not_or, not_exists, not_and, Bool.not_eq_true]
  constructor
  · rintro ⟨opened, exscan, reads, closed⟩
    exact ⟨⟨opened, exscan, closed⟩, reads⟩
  · rintro ⟨⟨opened, exscan, closed⟩, reads⟩
    exact ⟨opened, exscan, reads, closed⟩

/-- The size of a record. -/
def recordSize (header : ArrayHeader) : ℕ := 12 + header.xdim * header.ydim * 4

/-- Where a record of a rank starts. -/
def recordStart (header : ArrayHeader) (rank i : ℕ) : ℕ :=
  rank * header.totalsz + i * recordSize header

/-- The header that the readers expect in an iteration. -/
def expected (header : ArrayHeader) (i : ℕ) : Science :=
  ⟨Int32.ofNat header.xdim, Int32.ofNat header.ydim, Int32.ofNat (i + 1)⟩

/-- `data` before an iteration, if the ones before it succeed. -/
def earlier (header : ArrayHeader) : ℕ → Science
  | 0 => header.data
  | i + 1 => expected header i

variable {int : Native Int32 4} {header : ArrayHeader} {content : List UInt8} {calls : Calls}

theorem check_ok_iff (i : ℕ) (data : Science) :
    check header i data = .ok () ↔ data = expected header i := by
  rw [check, expected]
  cases data
  simp only [Science.mk.injEq]
  split
  · rename_i wrong
    refine iff_of_false (fun same => by cases same) ?_
    rintro ⟨rfl, rfl, rfl⟩
    simp at wrong
  · rename_i right
    simp only [ne_eq, not_or, not_not] at right
    exact iff_of_true rfl ⟨right.2.1, right.2.2, right.1⟩

/-- What an iteration does. -/
theorem iteration_ok_iff (reading next : Reading) (i : ℕ) :
    reading.iteration int header content calls i = .ok next ↔
      (calls.scienceFails i = false ∧ calls.arrayFails i = false) ∧
      readScience int (fileOf content) reading.position reading.data = expected header i ∧
      (reading.readHeader int content).readArray int header content = next := by
  have unread : (reading.readHeader int content).data =
      readScience int (fileOf content) reading.position reading.data := rfl
  rw [← check_ok_iff, ← unread, Reading.iteration]
  cases calls.scienceFails i with
  | true => simp [Bind.bind, Except.bind, throw, throwThe, MonadExceptOf.throw]
  | false =>
      cases checked : check header i (reading.readHeader int content).data with
      | error error => simp [Bind.bind, Except.bind, Except.mapError, checked]
      | ok _ =>
          cases calls.arrayFails i <;>
            simp [Bind.bind, Except.bind, Except.mapError, checked, throw, throwThe,
              MonadExceptOf.throw, Pure.pure, Except.pure]

/-- What a rank does. -/
theorem readData_ok_iff (initial : Int) (rank : ℕ) (reading : Reading) :
    readData int header content calls initial rank = .ok reading ↔
      (calls.openFails = false ∧ calls.exscanFails = false ∧ calls.closeFails = false) ∧
      (List.range header.iter).foldlM (Reading.iteration int header content calls)
        ⟨recordStart header rank 0, header.data, header.array, []⟩ = .ok reading := by
  have sought : (if 0 < rank then (header.off initial rank).toNat else 0) =
      recordStart header rank 0 := by
    rw [recordStart, Nat.zero_mul, Nat.add_zero]
    by_cases first : rank = 0
    · rw [if_neg (by omega), first, Nat.zero_mul]
    · rw [if_pos (Nat.pos_of_ne_zero first), off_later header initial first, Int.toNat_natCast]
  rw [readData, sought]
  cases calls.openFails with
  | true => simp [Bind.bind, Except.bind, throw, throwThe, MonadExceptOf.throw]
  | false =>
      cases calls.exscanFails with
      | true => simp [Bind.bind, Except.bind, throw, throwThe, MonadExceptOf.throw]
      | false =>
          cases calls.closeFails <;>
            cases looped : (List.range header.iter).foldlM
              (Reading.iteration int header content calls)
              ⟨recordStart header rank 0, header.data, header.array, []⟩ <;>
            simp [Bind.bind, Except.bind, looped, throw, throwThe, MonadExceptOf.throw, Pure.pure,
              Except.pure]

/-! ### Headers -/

/-- What completes a beginning to a list of the same length as another. -/
theorem take_append_drop_eq_iff (begin : List UInt8) {old new : List UInt8}
    (sized : old.length = new.length) :
    (begin ++ old.drop begin.length).take new.length = new ↔
      begin.take new.length <+: new ∧ new.drop begin.length = old.drop begin.length := by
  have rest : (old.drop begin.length).take (new.length - begin.length) =
      old.drop begin.length := by
    rw [List.take_of_length_le]
    rw [List.length_drop, sized]
  rw [List.take_append, rest]
  constructor
  · intro same
    refine ⟨⟨_, same⟩, ?_⟩
    rcases Nat.le_total begin.length new.length with within | past
    · rw [List.take_of_length_le within] at same
      nth_rewrite 1 [← same]
      rw [List.drop_left]
    · rw [List.drop_eq_nil_of_le past, List.drop_eq_nil_of_le (sized.trans_le past)]
  · rintro ⟨⟨tail, begins⟩, same⟩
    rw [← same]
    rcases Nat.le_total begin.length new.length with within | past
    · rw [List.take_of_length_le within] at begins ⊢
      nth_rewrite 1 [← begins]
      rw [List.drop_left, begins]
    · rw [List.drop_eq_nil_of_le past, List.append_nil]
      refine List.IsPrefix.eq_of_length ⟨tail, begins⟩ ?_
      rw [List.length_take, Nat.min_eq_left past]

theorem encodeAll_fields (data : Science) : int.encodeAll data.fields =
    int.encode data.row ++ (int.encode data.col ++ int.encode data.iter) := by
  simp [Science.fields, Native.encodeAll]

theorem length_encodeAll_fields (data : Science) : (int.encodeAll data.fields).length = 12 := by
  simp [Science.fields]

theorem encodeAll_fields_inj (int : Native Int32 4) {data data' : Science} :
    int.encodeAll data.fields = int.encodeAll data'.fields ↔ data = data' := by
  refine ⟨fun same => ?_,
    fun same => congrArg (fun data : Science => int.encodeAll data.fields) same⟩
  rw [encodeAll_fields, encodeAll_fields] at same
  obtain ⟨row, rest⟩ := List.append_inj same (by simp)
  obtain ⟨col, iter⟩ := List.append_inj rest (by simp)
  cases data
  cases data'
  simp only [Science.mk.injEq]
  exact ⟨int.encode_injective row, int.encode_injective col, int.encode_injective iter⟩

/-- The bytes of a header that has been read: those of the file, completed by the old ones. -/
theorem encodeAll_readScience (position : ℕ) (data : Science) :
    int.encodeAll (readScience int (fileOf content) position data).fields =
      (content.drop position ++
        (int.encodeAll data.fields).drop (content.drop position).length).take 12 := by
  have element : ∀ (offset : Int) (value : Int32),
      int.encode (readElement int (fileOf content) offset value) =
        readAt (fileOf content) offset (int.encode value) := fun offset value =>
    (readElement_eq_iff.mp rfl).symm
  have buffer := readAt_fileOf (content.drop position) (int.encodeAll data.fields)
  rw [length_encodeAll_fields] at buffer
  rw [← buffer, ← readAt_fileOf_natCast, encodeAll_fields, encodeAll_fields, readAt_append,
    readAt_append, int.length_encode, int.length_encode, add_assoc]
  simp only [readScience, element]
  rfl

/-- The header of a record is accepted, if those before it are. -/
def Accepted (int : Native Int32 4) (header : ArrayHeader) (content : List UInt8) (rank i : ℕ) :
    Prop :=
  readScience int (fileOf content) (recordStart header rank i) (earlier header i) =
    expected header i

/-- A header is accepted if what the file has of it is right, and the rest was so before. -/
theorem accepted_iff (rank i : ℕ) : Accepted int header content rank i ↔
    (content.drop (recordStart header rank i)).take 12 <+:
      int.encodeAll (expected header i).fields ∧
    (int.encodeAll (expected header i).fields).drop
        (content.length - recordStart header rank i) =
      (int.encodeAll (earlier header i).fields).drop
        (content.length - recordStart header rank i) := by
  have sized : (int.encodeAll (earlier header i).fields).length =
      (int.encodeAll (expected header i).fields).length := by
    rw [length_encodeAll_fields, length_encodeAll_fields]
  have completes := take_append_drop_eq_iff (content.drop (recordStart header rank i)) sized
  rw [length_encodeAll_fields, List.length_drop] at completes
  rw [Accepted, ← encodeAll_fields_inj int, encodeAll_readScience, List.length_drop]
  exact completes

/-! ### The loop -/

/-- Two positions that are the same, or both not before the end of the file. -/
def SamePlace (content : List UInt8) (position position' : ℕ) : Prop :=
  position = position' ∨ content.length ≤ position ∧ content.length ≤ position'

/-- Behind the end of the file the position does not matter. -/
theorem readScience_samePlace {position position' : ℕ}
    (same : SamePlace content position position') (data : Science) :
    readScience int (fileOf content) position data =
      readScience int (fileOf content) position' data := by
  rcases same with rfl | ⟨past, past'⟩
  · rfl
  · rw [← encodeAll_fields_inj int, encodeAll_readScience, encodeAll_readScience,
      List.drop_eq_nil_of_le past, List.drop_eq_nil_of_le past']

/-- Short reads end where the file ends. -/
theorem samePlace_readArray {reading : Reading} {place : ℕ}
    (same : SamePlace content reading.position place) :
    SamePlace content ((reading.readHeader int content).readArray int header content).position
      (place + recordSize header) := by
  simp only [SamePlace, Reading.readHeader, Reading.readArray, transferred, recordSize] at same ⊢
  omega

theorem recordStart_succ (rank i : ℕ) :
    recordStart header rank (i + 1) = recordStart header rank i + recordSize header := by
  rw [recordStart, recordStart, Nat.succ_mul, Nat.add_assoc]

/-- A rank finishes exactly if no call fails and every header is accepted. -/
theorem exists_readData_iff (initial : Int) (rank : ℕ) :
    (∃ reading, readData int header content calls initial rank = .ok reading) ↔
      ¬ calls.Fails header.iter ∧ ∀ i < header.iter, Accepted int header content rank i := by
  have looped : (∃ reading, (List.range header.iter).foldlM
      (Reading.iteration int header content calls)
      ⟨recordStart header rank 0, header.data, header.array, []⟩ = .ok reading) ↔
      ∀ i < header.iter, (calls.scienceFails i = false ∧ calls.arrayFails i = false) ∧
        Accepted int header content rank i := by
    refine foldlM_range_ok_iff (I := fun i reading => reading.data = earlier header i ∧
      SamePlace content reading.position (recordStart header rank i)) ⟨rfl, .inl rfl⟩ ?_ ?_
    · rintro i _ reading ⟨data, same⟩
      simp only [iteration_ok_iff, exists_and_left, exists_eq', and_true, data,
        readScience_samePlace same]
      rfl
    · rintro i _ reading next ⟨data, same⟩ iterated
      obtain ⟨_, read, rfl⟩ := iteration_ok_iff reading next i |>.mp iterated
      exact ⟨read, recordStart_succ rank i ▸ samePlace_readArray same⟩
  simp only [readData_ok_iff, exists_and_left, looped, Calls.not_fails_iff]
  constructor
  · rintro ⟨setup, reads⟩
    exact ⟨⟨setup, fun i inside => (reads i inside).1⟩, fun i inside => (reads i inside).2⟩
  · rintro ⟨⟨setup, reads⟩, accepted⟩
    exact ⟨setup, fun i inside => ⟨reads i inside, accepted i inside⟩⟩

/-- A rank whose records the file holds reads them whole. -/
theorem transfers_of_le {initial : Int} {rank : ℕ} {reading : Reading}
    (long : recordStart header rank header.iter ≤ content.length)
    (finished : readData int header content calls initial rank = .ok reading) {i : ℕ}
    (inside : i < header.iter) :
    (recordStart header rank i, 12) ∈ reading.transfers ∧
      (recordStart header rank i + 12, header.xdim * header.ydim * 4) ∈ reading.transfers := by
  have looped := (readData_ok_iff initial rank reading).mp finished |>.2
  have inFile : ∀ i < header.iter, recordStart header rank i + recordSize header ≤
      content.length := by
    intro i inside
    have before := Nat.mul_le_mul_right (recordSize header) inside
    rw [Nat.succ_mul] at before
    rw [recordStart] at long ⊢
    omega
  have all := foldlM_range_keeps (I := fun count (reading : Reading) =>
    reading.position = recordStart header rank count ∧ ∀ i < count,
      (recordStart header rank i, 12) ∈ reading.transfers ∧
        (recordStart header rank i + 12, header.xdim * header.ydim * 4) ∈ reading.transfers)
    ⟨rfl, fun i none => absurd none (Nat.not_lt_zero i)⟩ ?_ looped
  · exact all.2 i inside
  · rintro count inside reading next ⟨place, earlier⟩ iterated
    obtain ⟨_, _, rfl⟩ := iteration_ok_iff reading next count |>.mp iterated
    have whole := inFile count inside
    have header' : transferred content (recordStart header rank count) 12 = 12 := by
      rw [recordSize] at whole
      exact Nat.min_eq_left (by omega)
    have array : transferred content (recordStart header rank count + 12)
        (header.xdim * header.ydim * 4) = header.xdim * header.ydim * 4 := by
      rw [recordSize] at whole
      exact Nat.min_eq_left (by omega)
    simp only [Reading.readArray, Reading.readHeader, place, header', array]
    refine ⟨by rw [recordStart_succ, recordSize, Nat.add_assoc], fun i listed => ?_⟩
    simp only [List.append_assoc, List.mem_append]
    rcases Nat.lt_succ_iff_lt_or_eq.mp listed with less | rfl
    · exact ⟨.inl (earlier i less).1, .inl (earlier i less).2⟩
    · simp

/-! ### Memory -/

/-- Behind the end of the file nothing is read. -/
theorem readElements_past {position : ℕ} (past : content.length ≤ position) (old : List Int32) :
    readElements int (fileOf content) position old = old := by
  apply List.ext_getElem?
  intro index
  rw [readElements, List.getElem?_mapIdx]
  cases old[index]? with
  | none => rfl
  | some value =>
      rw [Option.map_some, readElement_of_none]
      intro byte _
      rw [← Nat.cast_add, ← Nat.cast_add, fileOf_natCast]
      exact List.getElem?_eq_none (by omega)

theorem readElements_samePlace {position position' : ℕ}
    (same : SamePlace content position position') (old : List Int32) :
    readElements int (fileOf content) position old =
      readElements int (fileOf content) position' old := by
  rcases same with rfl | ⟨past, past'⟩
  · rfl
  · rw [readElements_past past, readElements_past past']

/-- A reader that does not stop at the end of the file, with the same memory. -/
def SameMemory (content : List UInt8) (reading : Reading) (cursor : Cursor) : Prop :=
  ∃ place : ℕ, cursor.position = place ∧ SamePlace content reading.position place ∧
    cursor.data = reading.data ∧ cursor.array = reading.array

theorem samePlace_readHeader {reading : Reading} {place : ℕ}
    (same : SamePlace content reading.position place) :
    SamePlace content (reading.readHeader int content).position (place + 12) := by
  simp only [SamePlace, Reading.readHeader, transferred] at same ⊢
  omega

theorem SameMemory.readScience_eq {reading : Reading} {cursor : Cursor}
    (same : SameMemory content reading cursor) :
    readScience int (fileOf content) cursor.position cursor.data =
      readScience int (fileOf content) reading.position reading.data := by
  obtain ⟨place, position, samePlace, data, _⟩ := same
  rw [position, data]
  exact (readScience_samePlace samePlace _).symm

/-- Where the reads end does not matter to the memory. -/
theorem sameMemory_iteration {reading : Reading} {cursor : Cursor}
    (same : SameMemory content reading cursor) :
    SameMemory content ((reading.readHeader int content).readArray int header content)
      { position := cursor.position + 12 + (header.xdim * header.ydim * 4 : ℕ)
        data := readScience int (fileOf content) cursor.position cursor.data
        array := readElements int (fileOf content) (cursor.position + 12) cursor.array } := by
  have header' : readScience int (fileOf content) cursor.position cursor.data =
      readScience int (fileOf content) reading.position reading.data := same.readScience_eq
  obtain ⟨place, position, samePlace, data, array⟩ := same
  refine ⟨place + recordSize header, ?_, samePlace_readArray samePlace, header', ?_⟩
  · rw [position, recordSize]
    push_cast
    ring
  · rw [position, array]
    exact (readElements_samePlace (samePlace_readHeader samePlace) _).symm

section SameMemory

variable {initial : Int} {rank : ℕ}

theorem sameMemory_start : SameMemory content
    ⟨recordStart header rank 0, header.data, header.array, []⟩
    ⟨if 0 < rank then header.off initial rank else 0, header.data, header.array⟩ := by
  refine ⟨recordStart header rank 0, ?_, .inl rfl, rfl, rfl⟩
  rw [sought_eq, place_zero, recordStart, Nat.zero_mul, Nat.add_zero]

/-- A rank that finishes leaves in memory what one leaves that takes every read to be whole. -/
theorem sequentialRead_of_readData {reading : Reading}
    (finished : readData int header content calls initial rank = .ok reading) :
    ∃ cursor, sequentialRead int header (fileOf content) initial rank = .ok cursor ∧
      SameMemory content reading cursor := by
  have looped := (readData_ok_iff initial rank reading).mp finished |>.2
  refine foldlM_range_simulates (R := SameMemory content) sameMemory_start ?_ looped
  rintro i _ reading cursor next same iterated
  obtain ⟨_, read, rfl⟩ := iteration_ok_iff reading next i |>.mp iterated
  have accepted := (check_ok_iff i _).mpr (same.readScience_eq.trans read)
  refine ⟨_, ?_, sameMemory_iteration same⟩
  simp only [accepted]
  rfl

/-- If no call fails, such a rank finishes as well. -/
theorem readData_of_sequentialRead (succeed : ¬ calls.Fails header.iter) {cursor : Cursor}
    (finished : sequentialRead int header (fileOf content) initial rank = .ok cursor) :
    ∃ reading, readData int header content calls initial rank = .ok reading ∧
      SameMemory content reading cursor := by
  obtain ⟨setup, reads⟩ := (calls.not_fails_iff header.iter).mp succeed
  have followed : ∃ reading, (List.range header.iter).foldlM
      (Reading.iteration int header content calls)
      ⟨recordStart header rank 0, header.data, header.array, []⟩ = .ok reading ∧
        SameMemory content reading cursor := by
    refine foldlM_range_simulates (R := fun cursor reading => SameMemory content reading cursor)
      sameMemory_start ?_ finished
    rintro i inside cursor reading next same iterated
    cases accepted : check header i
        (readScience int (fileOf content) cursor.position cursor.data) with
    | error error =>
        simp only [accepted] at iterated
        cases iterated
    | ok _ =>
        simp only [accepted] at iterated
        cases iterated
        refine ⟨_, (iteration_ok_iff reading _ i).mpr ⟨reads i inside, ?_, rfl⟩,
          sameMemory_iteration same⟩
        exact same.readScience_eq.symm.trans ((check_ok_iff i _).mp accepted)
  obtain ⟨reading, looped, same⟩ := followed
  exact ⟨reading, (readData_ok_iff initial rank reading).mpr ⟨setup, looped⟩, same⟩

end SameMemory

end HandsOn.Daos
