import HandsOn.Mpi.File

/-!
# The outcome of reading a header

`CSRIO_Read_header` of `csrio-mpiio.c`. Rank 0 opens the file, reads from it and closes it, and
sends what it has read together with the error code to the others.
-/

namespace HandsOn.Sparse.ReadHeader

open HandsOn.Mpi

/-- The 80 characters of a title. -/
abbrev Title := {bytes : List UInt8 // bytes.length = 80}

/-- The elements of `nrnz`. -/
structure Counts where
  n : Int32
  nz : Int32

/-- The codes that the calls of rank 0 return, and what a read that fails leaves in its buffer. -/
structure Attempt where
  openErr : Int32
  titleErr : Int32
  titleLeft : Title
  countsErr : Int32
  countsLeft : Counts

/-- The title, the counts at `n_p` and `nz_p`, and `nrnz` of a rank. -/
structure Local where
  title : Title
  counts : Counts
  nrnz : Counts

/-- The calls of rank 0 on its file. -/
inductive FileCall where
  | open
  | readTitle
  | readCounts
  | close
deriving DecidableEq

/-- The variables of rank 0 while it has the file, and its calls so far. -/
structure Root where
  err : Int32
  title : Title
  nrnz : Counts
  calls : List FileCall

/-- `MPI_SUCCESS` -/
def success : Int32 := 0

namespace Root

variable (int : Native Int32 4) (file : File) (attempt : Attempt) (root : Root)

def openFile : Root :=
  { root with err := attempt.openErr, calls := root.calls ++ [.open] }

/-- `MPI_File_read_at(fh, 0, title, 80, MPI_CHAR, &status)` -/
def readTitle : Root :=
  if root.err = success then
    { root with
      err := attempt.titleErr
      title :=
        if attempt.titleErr = success then
          ⟨readAt file 0 root.title, by simp [readAt, root.title.2]⟩
        else attempt.titleLeft
      calls := root.calls ++ [.readTitle] }
  else root

/-- `MPI_File_read_at(fh, 80, nrnz, 2, MPI_INT, &status)` -/
def readCounts : Root :=
  if root.err = success then
    { root with
      err := attempt.countsErr
      nrnz :=
        if attempt.countsErr = success then
          { n := readElement int file 80 root.nrnz.n
            nz := readElement int file 84 root.nrnz.nz }
        else attempt.countsLeft
      calls := root.calls ++ [.readCounts] }
  else root

def closeFile : Root :=
  { root with calls := root.calls ++ [.close] }

/-- What rank 0 does before the broadcast. -/
def run (ranks : ℕ → Local) : Root :=
  let root : Root := { err := 0, title := (ranks 0).title, nrnz := (ranks 0).nrnz, calls := [] }
  (((root.openFile attempt).readTitle file attempt).readCounts int file attempt).closeFile

end Root

/-- `CSRIO_Read_header` on a rank: the code it returns, and its variables. The broadcast takes
the title, `nrnz` and `ioerr` of rank 0 to every rank. -/
def csrioReadHeader (int : Native Int32 4) (file : File) (attempt : Attempt) (ranks : ℕ → Local)
    (rank : ℕ) : Int32 × Local :=
  let root := Root.run int file attempt ranks
  if root.err = success then
    (success, { title := root.title, counts := root.nrnz, nrnz := root.nrnz })
  else
    (root.err, { title := root.title, counts := (ranks rank).counts, nrnz := root.nrnz })

/-- The outcome of rank 0 is reported to everyone. -/
structure Faithful (int : Native Int32 4) (content : List UInt8) (attempt : Attempt)
    (nprocs : ℕ) (ranks : ℕ → Local) : Prop where
  sameCode : ∀ first < nprocs, ∀ second < nprocs,
    (csrioReadHeader int (fileOf content) attempt ranks first).1 =
      (csrioReadHeader int (fileOf content) attempt ranks second).1
  /-- Every rank has the 88 bytes of a header that the file begins with. -/
  onSuccess : ∀ rank < nprocs,
    (csrioReadHeader int (fileOf content) attempt ranks rank).1 = success →
      ∃ header, header.length = 88 ∧ header <+: content ∧
        (csrioReadHeader int (fileOf content) attempt ranks rank).2.title = header.take 80 ∧
        int.encode (csrioReadHeader int (fileOf content) attempt ranks rank).2.counts.n ++
          int.encode (csrioReadHeader int (fileOf content) attempt ranks rank).2.counts.nz =
            header.drop 80
  onError : ∀ rank < nprocs,
    (csrioReadHeader int (fileOf content) attempt ranks rank).1 ≠ success →
      (csrioReadHeader int (fileOf content) attempt ranks rank).2.counts = (ranks rank).counts
  closes : FileCall.close ∈ (Root.run int (fileOf content) attempt ranks).calls ↔
    attempt.openErr = success

/-! ### Rank 0 -/

section

variable (int : Native Int32 4) (file : File) (attempt : Attempt) (ranks : ℕ → Local)

theorem close_mem_run : FileCall.close ∈ (Root.run int file attempt ranks).calls :=
  List.mem_append_right _ (List.mem_singleton_self _)

/-- The code is that of the first call that fails. -/
theorem run_err : (Root.run int file attempt ranks).err =
    if attempt.openErr = success then
      if attempt.titleErr = success then attempt.countsErr else attempt.titleErr
    else attempt.openErr := by
  by_cases opened : attempt.openErr = success
  · by_cases titled : attempt.titleErr = success
    · simp [Root.run, Root.openFile, Root.readTitle, Root.readCounts, Root.closeFile, opened,
        titled]
    · simp [Root.run, Root.openFile, Root.readTitle, Root.readCounts, Root.closeFile, opened,
        titled]
  · simp [Root.run, Root.openFile, Root.readTitle, Root.readCounts, Root.closeFile, opened]

variable {attempt}

/-- Where no call fails, rank 0 has what it has read. -/
theorem run_of_success (opened : attempt.openErr = success) (titled : attempt.titleErr = success)
    (counted : attempt.countsErr = success) :
    (Root.run int file attempt ranks).err = success ∧
      ((Root.run int file attempt ranks).title : List UInt8) =
        readAt file 0 (ranks 0).title ∧
      (Root.run int file attempt ranks).nrnz =
        { n := readElement int file 80 (ranks 0).nrnz.n
          nz := readElement int file 84 (ranks 0).nrnz.nz } := by
  simp [Root.run, Root.openFile, Root.readTitle, Root.readCounts, Root.closeFile, opened, titled,
    counted]

end

/-! ### All ranks -/

section

variable {int : Native Int32 4} {content : List UInt8} {attempt : Attempt} {ranks : ℕ → Local}

theorem code_eq (file : File) (rank : ℕ) :
    (csrioReadHeader int file attempt ranks rank).1 = (Root.run int file attempt ranks).err := by
  rw [csrioReadHeader]
  split
  case isTrue succeeded => exact succeeded.symm
  case isFalse failed => rfl

/-- The parts of a header that a file begins with. -/
theorem has_header {header : List UInt8} (sized : header.length = 88)
    (begins : header <+: content) :
    Has (fileOf content) 0 (header.take 80) ∧
      Has (fileOf content) 80 ((header.drop 80).take 4) ∧
      Has (fileOf content) 84 ((header.drop 80).drop 4) := by
  have parts : header = header.take 80 ++ ((header.drop 80).take 4 ++ (header.drop 80).drop 4) := by
    rw [List.take_append_drop, List.take_append_drop]
  have whole := has_fileOf.mpr begins
  rw [parts, has_append, has_append, List.length_take, List.length_take, List.length_drop,
    sized] at whole
  exact whole

/-- Where no call fails and the file has a whole header, every rank has it. -/
theorem header_read (opened : attempt.openErr = success) (titled : attempt.titleErr = success)
    (counted : attempt.countsErr = success) {header : List UInt8} (sized : header.length = 88)
    (begins : header <+: content) (rank : ℕ) :
    ((csrioReadHeader int (fileOf content) attempt ranks rank).2.title : List UInt8) =
        header.take 80 ∧
      int.encode (csrioReadHeader int (fileOf content) attempt ranks rank).2.counts.n ++
        int.encode (csrioReadHeader int (fileOf content) attempt ranks rank).2.counts.nz =
          header.drop 80 := by
  obtain ⟨succeeded, title, nrnz⟩ := run_of_success int (fileOf content) ranks opened titled counted
  obtain ⟨hasTitle, hasN, hasNz⟩ := has_header sized begins
  rw [csrioReadHeader, if_pos succeeded]
  constructor
  · rw [title, readAt_of_has hasTitle (by simp [(ranks 0).title.2, sized])]
  · rw [nrnz, encode_readElement_of_has hasN (by simp [sized]),
      encode_readElement_of_has hasNz (by simp [sized]), List.take_append_drop]

/-- The outcome is reported faithfully exactly if the file is opened, and a read fails or the
file has a whole header. -/
theorem faithful_iff (int : Native Int32 4) (content : List UInt8) (attempt : Attempt)
    (nprocs : ℕ) (ranks : ℕ → Local) (positive : 0 < nprocs) :
    Faithful int content attempt nprocs ranks ↔
      attempt.openErr = success ∧ (attempt.titleErr ≠ success ∨ attempt.countsErr ≠ success ∨
        88 ≤ content.length) := by
  constructor
  · intro faithful
    have opened := faithful.closes.mp (close_mem_run int (fileOf content) attempt ranks)
    refine ⟨opened, ?_⟩
    by_contra short
    simp only [not_or, not_not] at short
    obtain ⟨titled, counted, short⟩ := short
    have succeeded : (csrioReadHeader int (fileOf content) attempt ranks 0).1 = success := by
      rw [code_eq, run_err, if_pos opened, if_pos titled, counted]
    obtain ⟨header, sized, begins, -⟩ := faithful.onSuccess 0 positive succeeded
    have length := begins.length_le
    omega
  · rintro ⟨opened, condition⟩
    refine ⟨fun first _ second _ => ?_, fun rank _ succeeded => ?_, fun rank _ failed => ?_, ?_⟩
    · rw [code_eq, code_eq]
    · rw [code_eq, run_err, if_pos opened] at succeeded
      have titled : attempt.titleErr = success := by
        by_contra failed
        exact failed (by rwa [if_neg failed] at succeeded)
      rw [if_pos titled] at succeeded
      have whole := (condition.resolve_left (not_not_intro titled)).resolve_left
        (not_not_intro succeeded)
      have sized : (content.take 88).length = 88 := by rw [List.length_take, Nat.min_eq_left whole]
      exact ⟨content.take 88, sized, List.take_prefix _ _,
        header_read opened titled succeeded sized (List.take_prefix _ _) rank⟩
    · rw [code_eq] at failed
      rw [csrioReadHeader, if_neg failed]
    · exact ⟨fun _ => opened, fun _ => close_mem_run int (fileOf content) attempt ranks⟩

end

/-! ### Inputs -/

/-- What the variables of a rank may hold before the call. -/
def someLocal : Local where
  title := ⟨List.replicate 80 0, by decide⟩
  counts := ⟨7, 7⟩
  nrnz := ⟨1, 1⟩

/-- An attempt in which no call fails. -/
def attempted : Attempt where
  openErr := success
  titleErr := success
  titleLeft := ⟨List.replicate 80 0, by decide⟩
  countsErr := success
  countsLeft := ⟨0, 0⟩

/-- A file of 88 bytes that two processes read. -/
theorem faithful_whole_header :
    Faithful littleEndianInt (List.replicate 88 1) attempted 2 (fun _ => someLocal) :=
  (faithful_iff littleEndianInt (List.replicate 88 1) attempted 2 (fun _ => someLocal)
    (by decide)).mpr ⟨rfl, Or.inr (Or.inr (by decide))⟩

/-- An empty file is reported as a matrix with the counts that were in `nrnz`, and a file that
cannot be opened is closed. -/
theorem empty_header_reported :
    csrioReadHeader littleEndianInt (fileOf []) attempted (fun _ => someLocal) 1 =
        (success, { title := someLocal.title, counts := ⟨1, 1⟩, nrnz := ⟨1, 1⟩ }) ∧
      ¬ Faithful littleEndianInt [] attempted 2 (fun _ => someLocal) ∧
      (Root.run littleEndianInt (fileOf []) { attempted with openErr := 5 }
        (fun _ => someLocal)).calls = [.open, .close] ∧
      ¬ Faithful littleEndianInt [] { attempted with openErr := 5 } 2 (fun _ => someLocal) := by
  refine ⟨rfl, fun faithful => ?_, rfl, fun faithful => ?_⟩
  · obtain ⟨header, sized, begins, -⟩ := faithful.onSuccess 1 (by decide) rfl
    have length := begins.length_le
    rw [sized] at length
    exact absurd length (by decide)
  · exact absurd (faithful.closes.mp (by decide)) (by decide)

end HandsOn.Sparse.ReadHeader
