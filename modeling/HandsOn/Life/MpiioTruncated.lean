import HandsOn.Life.MpiioRestart

/-!
# Restarts from truncated checkpoints

`MLIFEIO_Restart` of `mlife-io-mpiio.c` does not look at the number of elements that its reads
transfer, and replaces the code of its second read by that of the close. A file that ends before
the matrix does, or before the header, restarts with success.
-/

namespace HandsOn.Life.Mpiio

open HandsOn.Mpi

/-- The header of the file is that of the matrix, and every interior cell of every rank has been
read from it. -/
structure Complete (int : Native Int32 4) (content : List UInt8) (rows cols nprocs : ℕ)
    (args : ℕ → RestartArguments) : Prop where
  header : Has (fileOf content) 0 (int.encodeAll [Int32.ofNat rows, Int32.ofNat cols])
  long : 12 + 4 * (rows * cols) ≤ content.length
  cells : ∀ rank < nprocs, ∀ i < myrows rows rank nprocs, ∀ j < cols, ∀ byte < 4, ∃ value,
    (address (args rank).matrix cols (i + 1) (j + 1) + (byte : ℕ), value) ∈
      (restart int (fileOf content) rows cols nprocs args rank).moved

/-- If all ranks return success, the restart is complete. -/
def SuccessIsComplete (int : Native Int32 4) (content : List UInt8) (rows cols nprocs : ℕ)
    (args : ℕ → RestartArguments) : Prop :=
  (∀ rank < nprocs, (restart int (fileOf content) rows cols nprocs args rank).code = mpiSuccess) →
    Complete int content rows cols nprocs args

/-- The first eight bytes of the file, which what is in `buf` completes where the file ends, are
those of the size of the matrix. -/
def Describes (int : Native Int32 4) (content : List UInt8) (rows cols : ℕ) (buf : Buf) : Prop :=
  (content ++ (int.encodeAll [buf.rows, buf.cols]).drop content.length).take 8 =
    int.encodeAll [Int32.ofNat rows, Int32.ofNat cols]

/-- The `int` from which a rank computes its file offset does not become negative. -/
def OffsetValid (rows cols nprocs rank : ℕ) : Prop :=
  (myrowoffset rows rank nprocs * cols + 3) % 2 ^ 32 < 2 ^ 31

instance (rows cols nprocs rank : ℕ) : Decidable (OffsetValid rows cols nprocs rank) :=
  inferInstanceAs (Decidable (_ < _))

/-- The read of the body succeeds, or reaches all cells of the rank before it fails. -/
def BodyReached (rows cols nprocs rank : ℕ) (args : RestartArguments) : Prop :=
  args.codes.readBody = mpiSuccess ∨
    ∀ i < myrows rows rank nprocs, ∀ j < cols, ∀ byte < 4,
      args.reached (address args.matrix cols (i + 1) (j + 1) + (byte : ℕ)) = true

instance (rows cols nprocs rank : ℕ) (args : RestartArguments) :
    Decidable (BodyReached rows cols nprocs rank args) :=
  inferInstanceAs (Decidable (_ ∨ _))

variable {int : Native Int32 4} {content : List UInt8} {rows cols nprocs : ℕ}
  {args : ℕ → RestartArguments}

/-! ### What a rank finds in its header -/

theorem describes_iff (buf : Buf) : Describes int content rows cols buf ↔
    (readBuf int (fileOf content) buf).rows = Int32.ofNat rows ∧
      (readBuf int (fileOf content) buf).cols = Int32.ofNat cols := by
  have pair : ∀ first second : Int32,
      int.encodeAll [first, second] = int.encode first ++ int.encode second := by
    intro first second
    simp [Native.encodeAll]
  have taken := readAt_fileOf content (int.encodeAll [buf.rows, buf.cols])
  rw [Native.length_encodeAll, List.length_cons, List.length_singleton, pair, readAt_append,
    int.length_encode] at taken
  rw [Describes, pair, pair, ← taken, readBuf, readElement_eq_iff, readElement_eq_iff]
  constructor
  · intro same
    exact List.append_inj same (by simp [readAt])
  · rintro ⟨first, second⟩
    rw [first]
    exact congrArg _ second

/-- Where the file holds the header, `buf` does not matter. -/
theorem has_header (long : 8 ≤ content.length) {buf : Buf}
    (describes : Describes int content rows cols buf) :
    Has (fileOf content) 0 (int.encodeAll [Int32.ofNat rows, Int32.ofNat cols]) := by
  rw [Describes, List.take_append_of_le_length long] at describes
  exact has_fileOf.mpr (describes ▸ List.take_prefix 8 content)

/-! ### Where a rank reads -/

theorem offsetValid_iff (rows cols nprocs rank : ℕ) : OffsetValid rows cols nprocs rank ↔
    0 ≤ myfileoffset (Int32.ofNat (myrowoffset rows rank nprocs)) (Int32.ofNat cols) := by
  rw [OffsetValid, myfileoffset_ofNat, ← toInt_ofNat_nonneg_iff]
  omega

/-- Where an offset wraps around, it becomes smaller. -/
theorem myfileoffset_le (myoffset cols : ℕ) :
    myfileoffset (Int32.ofNat myoffset) (Int32.ofNat cols) ≤
      ((myoffset * cols + 3 : ℕ) : Int) * 4 := by
  rw [myfileoffset_ofNat]
  exact Int.mul_le_mul_of_nonneg_right (toInt_ofNat_le _) (by decide)

/-- A byte of a cell is read where the file has a byte for it and the read has reached it. -/
theorem cell_read_iff {own : RestartArguments} {offset : Int} {file : File} {myrows i j byte : ℕ}
    (inRows : i < myrows) (inCols : j < cols) (inside : byte < 4) :
    (∃ value, (address own.matrix cols (i + 1) (j + 1) + (byte : ℕ), value) ∈
      readBody file offset (typeCreateRowblk own.matrix myrows cols) own) ↔
      (0 ≤ offset ∧ ∃ value, file (offset + ((i * cols + j) * 4 + byte : ℕ)) = some value) ∧
      (own.codes.readBody = mpiSuccess ∨
        own.reached (address own.matrix cols (i + 1) (j + 1) + (byte : ℕ)) = true) := by
  have stored : ∀ value, (address own.matrix cols (i + 1) (j + 1) + (byte : ℕ), value) ∈
      readScattered file offset (typeCreateRowblk own.matrix myrows cols) ↔ _ := fun value =>
    mem_readScattered_iff (rowblk_nodup _ _ _) (rowblk_getElem? own.matrix inRows inCols inside)
  rw [readBody]
  split
  case isTrue succeeds => simp [stored, succeeds]
  case isFalse fails => simp [stored, fails]

/-! ### Success -/

/-- A rank whose call fails noticeably does not return success. -/
theorem code_ne_success {rank : ℕ} (inside : rank < nprocs) {file : File}
    (noticed : (args rank).codes.Noticed) :
    (restart int file rows cols nprocs args rank).code ≠ mpiSuccess := by
  intro success
  simp only [restart] at success
  split at success
  case isTrue closed => exact closed success
  case isFalse isOpen =>
    split at success
    case isTrue => exact absurd success (by decide)
    case isFalse agreed =>
      have noErr := gErr_eq_zero_iff.mp (not_not.mp (not_or.mp agreed).1) rank inside
      rcases noticed with fails | fails | fails
      · exact isOpen fails
      · exact fails noErr
      · exact fails success

/-- Where the file is long enough, a rank whose offset is valid reads all its cells. -/
theorem cell_stored (long : 12 + 4 * (rows * cols) ≤ content.length) {rank i j byte : ℕ}
    (inside : rank < nprocs) (valid : OffsetValid rows cols nprocs rank)
    (inRows : i < myrows rows rank nprocs) (inCols : j < cols) (inCell : byte < 4) :
    ∃ value, fileOf content
      (myfileoffset (Int32.ofNat (myrowoffset rows rank nprocs)) (Int32.ofNat cols) +
        ((i * cols + j) * 4 + byte : ℕ)) = some value := by
  obtain ⟨start, offset⟩ := Int.eq_ofNat_of_zero_le
    ((offsetValid_iff rows cols nprocs rank).mp valid)
  have before := myfileoffset_le (myrowoffset rows rank nprocs) cols
  have row : (myrowoffset rows rank nprocs + i + 1) * cols ≤ rows * cols :=
    Nat.mul_le_mul_right cols (by have := myrowoffset_add_le rows inside; omega)
  rw [Nat.succ_mul, Nat.add_mul] at row
  rw [offset] at before ⊢
  have inFile : start + ((i * cols + j) * 4 + byte) < content.length := by omega
  exact ⟨_, List.getElem?_eq_getElem inFile⟩

/-- If all ranks return success, the restart is complete, exactly if a call of some rank fails whose
code is looked at, some rank finds another header, or the file is as long as it should be and no
rank with cells reads at a negative offset or fails to read one of its cells. -/
theorem success_is_complete_iff (int : Native Int32 4) (content : List UInt8)
    (rows cols nprocs : ℕ) (positive : 0 < nprocs) (args : ℕ → RestartArguments) :
    SuccessIsComplete int content rows cols nprocs args ↔
      (∃ rank < nprocs, (args rank).codes.Noticed) ∨
      (∃ rank < nprocs, ¬ Describes int content rows cols (args rank).buf) ∨
      (12 + 4 * (rows * cols) ≤ content.length ∧ ∀ rank < nprocs,
        0 < myrows rows rank nprocs → 0 < cols →
          OffsetValid rows cols nprocs rank ∧ BodyReached rows cols nprocs rank (args rank)) := by
  constructor
  · intro complete
    by_contra wrong
    obtain ⟨unnoticed, describes, bodies⟩ : (∀ rank < nprocs, ¬ (args rank).codes.Noticed) ∧
        (∀ rank < nprocs, Describes int content rows cols (args rank).buf) ∧ _ := by
      push Not at wrong
      exact wrong
    have restarted : ∀ rank < nprocs, restart int (fileOf content) rows cols nprocs args rank = _ :=
      fun rank inside => (restart_of_unnoticed unnoticed inside).trans
        (if_pos ((describes_iff _).mp (describes rank inside)))
    obtain ⟨_, long, cells⟩ := complete fun rank inside => by rw [restarted rank inside]
    obtain ⟨rank, inside, someRow, someCol, missing⟩ := bodies long
    have read : ∀ i < myrows rows rank nprocs, ∀ j < cols, ∀ byte < 4, _ :=
      fun i inRows j inCols byte inCell => by
        have read := cells rank inside i inRows j inCols byte inCell
        rwa [restarted rank inside, cell_read_iff inRows inCols inCell] at read
    have valid := (offsetValid_iff rows cols nprocs rank).mpr
      (read 0 someRow 0 someCol 0 (by decide)).1.1
    refine missing valid ?_
    by_cases succeeds : (args rank).codes.readBody = mpiSuccess
    · exact .inl succeeds
    · exact .inr fun i inRows j inCols byte inCell =>
        (read i inRows j inCols byte inCell).2.resolve_left succeeds
  · intro holds success
    have unnoticed : ∀ rank < nprocs, ¬ (args rank).codes.Noticed := fun rank inside noticed =>
      code_ne_success inside noticed (success rank inside)
    have describes : ∀ rank < nprocs, Describes int content rows cols (args rank).buf := by
      intro rank inside
      have code := success rank inside
      rw [restart_of_unnoticed unnoticed inside] at code
      split at code
      case isTrue same => exact (describes_iff _).mpr same
      case isFalse => exact absurd code (by decide)
    obtain ⟨rank, inside, fails⟩ | ⟨rank, inside, other⟩ | ⟨long, bodies⟩ := holds
    · exact absurd fails (unnoticed rank inside)
    · exact absurd (describes rank inside) other
    · refine ⟨has_header (by omega) (describes 0 positive), long, ?_⟩
      intro rank inside i inRows j inCols byte inCell
      obtain ⟨valid, reached⟩ :=
        bodies rank inside (Nat.zero_lt_of_lt inRows) (Nat.zero_lt_of_lt inCols)
      rw [restart_of_unnoticed unnoticed inside,
        if_pos ((describes_iff _).mp (describes rank inside)), cell_read_iff inRows inCols inCell]
      refine ⟨⟨(offsetValid_iff rows cols nprocs rank).mp valid,
        cell_stored long inside valid inRows inCols inCell⟩, ?_⟩
      exact reached.imp_right fun all => all i inRows j inCols byte inCell

private def idleArguments (_ : ℕ) : RestartArguments where
  memory _ := 255
  matrix := 0
  buf := { rows := 0, cols := 0, iter := 0 }
  codes := .succeed
  reached _ := false

/-- A complete file of one row of two cells. -/
theorem success_is_complete_row :
    SuccessIsComplete littleEndianInt (littleEndianInt.encodeAll [1, 2, 5, 1, 0]) 1 2 3
      idleArguments :=
  (success_is_complete_iff littleEndianInt (littleEndianInt.encodeAll [1, 2, 5, 1, 0]) 1 2 3
    (by decide) idleArguments).mpr (.inr (.inr ⟨by decide, by decide⟩))

/-- A file that ends after its header: all ranks return success, and none has read a cell. -/
theorem header_alone_succeeds :
    let content := littleEndianInt.encodeAll [1, 2, 5]
    (∀ rank < 1, (restart littleEndianInt (fileOf content) 1 2 1 idleArguments rank).code =
      mpiSuccess) ∧
    (∀ rank < 1, (restart littleEndianInt (fileOf content) 1 2 1 idleArguments rank).moved = []) ∧
    ¬ SuccessIsComplete littleEndianInt content 1 2 1 idleArguments := by
  have success : ∀ rank < 1, (restart littleEndianInt
      (fileOf (littleEndianInt.encodeAll [1, 2, 5])) 1 2 1 idleArguments rank).code =
        mpiSuccess := by decide
  refine ⟨success, by decide, fun complete => ?_⟩
  exact absurd (complete success).long (by decide)

end HandsOn.Life.Mpiio
