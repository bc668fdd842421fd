import Mathlib.Data.List.Basic
import Mathlib.Data.Nat.Notation

/-!
# Regular files

The content of a regular file is the list of its bytes. A write past the end leaves a gap of
zero bytes, a read past the end is short.
-/

namespace HandsOn.Posix

/-- The content after bytes have been written at an offset. -/
def pwrite (content : List UInt8) (offset : ℕ) (bytes : List UInt8) : List UInt8 :=
  if bytes = [] then content
  else content.take offset ++ List.replicate (offset - content.length) 0 ++ bytes ++
    content.drop (offset + bytes.length)

/-- The bytes which a read of `count` bytes at an offset gives. -/
def pread (content : List UInt8) (offset count : ℕ) : List UInt8 :=
  (content.drop offset).take count

theorem length_pread (content : List UInt8) (offset count : ℕ) :
    (pread content offset count).length = min count (content.length - offset) := by
  rw [pread, List.length_take, List.length_drop]

theorem getElem?_pread (content : List UInt8) (offset : ℕ) {count index : ℕ}
    (inside : index < count) : (pread content offset count)[index]? = content[offset + index]? := by
  rw [pread, List.getElem?_take_of_lt inside, List.getElem?_drop]

theorem length_pwrite (content : List UInt8) (offset : ℕ) {bytes : List UInt8}
    (some' : bytes ≠ []) :
    (pwrite content offset bytes).length = max content.length (offset + bytes.length) := by
  simp only [pwrite, if_neg some', List.length_append, List.length_take, List.length_replicate,
    List.length_drop]
  omega

/-- What was written is there. -/
theorem getElem?_pwrite_inside (content : List UInt8) (offset : ℕ) {bytes : List UInt8}
    {index : ℕ} (inside : index < bytes.length) :
    (pwrite content offset bytes)[offset + index]? = bytes[index]? := by
  have some' : bytes ≠ [] := List.ne_nil_of_length_pos (Nat.zero_lt_of_lt inside)
  have before : (content.take offset ++ List.replicate (offset - content.length) 0).length =
      offset := by
    rw [List.length_append, List.length_take, List.length_replicate]
    omega
  rw [pwrite, if_neg some', List.append_assoc, List.getElem?_append_right (by omega), before,
    Nat.add_sub_cancel_left, List.getElem?_append_left inside]

/-- A byte of the file outside what was written stays as it was. -/
theorem getElem?_pwrite_outside (content : List UInt8) {offset position : ℕ} {bytes : List UInt8}
    (outside : position < offset ∨ offset + bytes.length ≤ position)
    (stored : position < content.length) :
    (pwrite content offset bytes)[position]? = content[position]? := by
  by_cases nothing : bytes = []
  · rw [nothing, pwrite, if_pos rfl]
  rw [pwrite, if_neg nothing]
  rcases outside with early | late
  · rw [List.append_assoc, List.append_assoc,
      List.getElem?_append_left (by rw [List.length_take]; omega),
      List.getElem?_take_of_lt early]
  · have before : (content.take offset ++ List.replicate (offset - content.length) 0 ++
        bytes).length = offset + bytes.length := by
      rw [List.length_append, List.length_append, List.length_take, List.length_replicate]
      omega
    rw [List.getElem?_append_right (by omega), before, List.getElem?_drop,
      Nat.add_sub_cancel' late]

/-- A write of the next bytes continues a write. -/
theorem pwrite_append (content : List UInt8) (offset : ℕ) (first second : List UInt8) :
    pwrite (pwrite content offset first) (offset + first.length) second =
      if first = [] then pwrite content offset second
      else pwrite content offset (first ++ second) := by
  split
  case isTrue nothing =>
    rw [nothing, List.length_nil, Nat.add_zero]
    exact congrArg (pwrite · offset second) (if_pos rfl)
  case isFalse some' =>
    by_cases nothing : second = []
    · rw [nothing, List.append_nil]
      exact if_pos rfl
    · have begins : (content.take offset ++ List.replicate (offset - content.length) 0 ++
          first).length = offset + first.length := by
        rw [List.length_append, List.length_append, List.length_take, List.length_replicate]
        omega
      have whole := length_pwrite content offset some'
      rw [pwrite, if_neg nothing, whole, Nat.sub_eq_zero_of_le (Nat.le_max_right _ _),
        List.replicate_zero, List.append_nil, pwrite, if_neg some', ← begins, List.take_left,
        ← List.drop_drop, List.drop_left, List.drop_drop, pwrite, if_neg (by simp [nothing]),
        begins, List.length_append, Nat.add_assoc]
      simp only [List.append_assoc]

/-! ### Bytes at an offset -/

/-- The file has the bytes at the offset. -/
def HasAt (content : List UInt8) (offset : ℕ) (bytes : List UInt8) : Prop :=
  pread content offset bytes.length = bytes

variable {content bytes : List UInt8} {offset : ℕ}

theorem hasAt_iff :
    HasAt content offset bytes ↔
      ∀ index < bytes.length, content[offset + index]? = bytes[index]? := by
  constructor
  · intro holds index inside
    rw [← getElem?_pread content offset inside, show pread content offset bytes.length = bytes
      from holds]
  · intro same
    apply List.ext_getElem?
    intro index
    rcases Nat.lt_or_ge index bytes.length with inside | past
    · rw [getElem?_pread content offset inside, same index inside]
    · rw [List.getElem?_eq_none past, List.getElem?_eq_none]
      rw [length_pread]
      omega

theorem HasAt.inside (holds : HasAt content offset bytes) {index : ℕ}
    (inside : index < bytes.length) : offset + index < content.length := by
  have stored := hasAt_iff.mp holds index inside
  rw [List.getElem?_eq_getElem inside] at stored
  exact (List.getElem?_eq_some_iff.mp stored).1

/-- A write elsewhere keeps the bytes. -/
theorem HasAt.pwrite_apart (holds : HasAt content offset bytes) {other : ℕ} {written : List UInt8}
    (apart : offset + bytes.length ≤ other ∨ other + written.length ≤ offset) :
    HasAt (pwrite content other written) offset bytes := by
  refine hasAt_iff.mpr fun index inside => ?_
  rw [getElem?_pwrite_outside content (by omega) (holds.inside inside),
    hasAt_iff.mp holds index inside]

/-- A write of the next bytes extends what is there. -/
theorem HasAt.pwrite_next (holds : HasAt content offset bytes) (next : List UInt8) :
    HasAt (pwrite content (offset + bytes.length) next) offset (bytes ++ next) := by
  refine hasAt_iff.mpr fun index inside => ?_
  rw [List.length_append] at inside
  rcases Nat.lt_or_ge index bytes.length with early | late
  · rw [getElem?_pwrite_outside content (by omega) (holds.inside early),
      List.getElem?_append_left early, hasAt_iff.mp holds index early]
  · have shifted : offset + index = offset + bytes.length + (index - bytes.length) := by omega
    rw [shifted, getElem?_pwrite_inside content _ (by omega), List.getElem?_append_right late]

/-- The rest of a read follows its beginning. -/
theorem pread_append (content : List UInt8) (offset first second : ℕ) :
    pread content offset first ++ pread content (offset + first) second =
      pread content offset (first + second) := by
  rw [pread, pread, pread, List.take_add, List.drop_drop]

/-- A read of as many bytes as another read gave gives the same. -/
theorem pread_length (content : List UInt8) (offset count : ℕ) :
    pread content offset (pread content offset count).length = pread content offset count := by
  rw [length_pread, pread, pread, ← List.length_drop, ← List.take_eq_take_min]

/-- What was read so far with the next bytes that are read. -/
theorem HasAt.append_pread (holds : HasAt content offset bytes) (count : ℕ) :
    HasAt content offset (bytes ++ pread content (offset + bytes.length) count) := by
  rw [HasAt, List.length_append, ← pread_append, pread_length, show pread content offset
    bytes.length = bytes from holds]

theorem hasAt_nil (content : List UInt8) (offset : ℕ) : HasAt content offset [] :=
  List.take_zero

end HandsOn.Posix
