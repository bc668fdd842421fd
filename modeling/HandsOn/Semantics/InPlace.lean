import HandsOn.Semantics.Loop
import Mathlib.Data.Nat.Notation
import Mathlib.Tactic.Linarith

/-!
# In-place conversion of arrays

An array of elements of one size becomes an array of elements of another size in the same
buffer. Elements that shrink can be converted from the first up, elements that grow from the
last down: no store then reaches a source that has not been read.
-/

namespace HandsOn.Semantics

/-- The bytes from the start of a buffer on. -/
abbrev ByteBuffer := ℕ → UInt8

namespace ByteBuffer

/-- `count` bytes from `address` on. -/
def load (buffer : ByteBuffer) (address count : ℕ) : List UInt8 :=
  (List.range count).map fun k => buffer (address + k)

/-- The buffer with `bytes` from `address` on. -/
def store (buffer : ByteBuffer) (address : ℕ) (bytes : List UInt8) : ByteBuffer :=
  fun place => if address ≤ place then bytes.getD (place - address) (buffer place) else buffer place

variable {buffer buffer' : ByteBuffer} {address count : ℕ} {bytes : List UInt8}

@[simp] theorem length_load : (buffer.load address count).length = count := by simp [load]

@[simp] theorem getElem_load {k : ℕ} (inside : k < (buffer.load address count).length) :
    (buffer.load address count)[k] = buffer (address + k) := by simp [load]

theorem getElem?_load {k : ℕ} (inside : k < count) :
    (buffer.load address count)[k]? = some (buffer (address + k)) := by
  simp [load, inside]

theorem load_const (fill : UInt8) :
    load (fun _ => fill) address count = List.replicate count fill := by
  simp [load]

/-- What is loaded depends on the bytes there only. -/
theorem load_congr (same : ∀ k < count, buffer (address + k) = buffer' (address + k)) :
    buffer.load address count = buffer'.load address count :=
  List.map_congr_left fun k listed => same k (List.mem_range.mp listed)

theorem store_of_lt {place : ℕ} (before : place < address) :
    buffer.store address bytes place = buffer place :=
  if_neg (Nat.not_le.mpr before)

theorem store_of_le {place : ℕ} (after : address + bytes.length ≤ place) :
    buffer.store address bytes place = buffer place := by
  rw [store, if_pos (Nat.le_of_add_right_le after), List.getD_eq_getElem?_getD,
    List.getElem?_eq_none (by omega), Option.getD_none]

theorem load_store : (buffer.store address bytes).load address bytes.length = bytes := by
  apply List.ext_getElem length_load
  intro k inside inside'
  rw [getElem_load, store, if_pos (Nat.le_add_right _ _), Nat.add_sub_cancel_left,
    List.getD_eq_getElem?_getD, List.getElem?_eq_getElem inside', Option.getD_some]

end ByteBuffer

open ByteBuffer

/-- The conversion of one element. -/
structure Conversion where
  srcSize : ℕ
  dstSize : ℕ
  convert : List UInt8 → List UInt8
  length_convert : ∀ bytes, (convert bytes).length = dstSize

namespace Conversion

variable (conversion : Conversion)

/-- Convert element `i` of a packed array. -/
def element (i : ℕ) (buffer : ByteBuffer) : ByteBuffer :=
  buffer.store (i * conversion.dstSize)
    (conversion.convert (buffer.load (i * conversion.srcSize) conversion.srcSize))

/-- Convert from the first element up. -/
def upward (nelmts : ℕ) : ByteBuffer → ByteBuffer := forLoop 0 nelmts conversion.element

/-- Convert from the last element down. -/
def downward : ℕ → ByteBuffer → ByteBuffer
  | 0, buffer => buffer
  | i + 1, buffer => downward i (conversion.element i buffer)

/-- Each element at a multiple of `dstStep` is the conversion of the one that was at that
multiple of `srcStep`, and nothing else has changed. -/
structure Converted (srcStep dstStep nelmts : ℕ) (before after : ByteBuffer) : Prop where
  element : ∀ i < nelmts, after.load (i * dstStep) conversion.dstSize =
    conversion.convert (before.load (i * srcStep) conversion.srcSize)
  others : ∀ place, (∀ i < nelmts, place < i * dstStep ∨ i * dstStep + conversion.dstSize ≤ place) →
    after place = before place

variable {conversion}

theorem load_element (i : ℕ) (buffer : ByteBuffer) :
    (conversion.element i buffer).load (i * conversion.dstSize) conversion.dstSize =
      conversion.convert (buffer.load (i * conversion.srcSize) conversion.srcSize) := by
  generalize source : buffer.load (i * conversion.srcSize) conversion.srcSize = bytes
  rw [← conversion.length_convert bytes, element, source]
  conv_lhs => rw [conversion.length_convert, ← conversion.length_convert bytes]
  exact load_store

theorem element_of_lt {i place : ℕ} {buffer : ByteBuffer}
    (before : place < i * conversion.dstSize) :
    conversion.element i buffer place = buffer place :=
  store_of_lt before

theorem element_of_le {i place : ℕ} {buffer : ByteBuffer}
    (after : (i + 1) * conversion.dstSize ≤ place) :
    conversion.element i buffer place = buffer place := by
  apply store_of_le
  rw [conversion.length_convert, ← Nat.succ_mul]
  exact after

/-- Bytes in no element lie behind all of them. -/
theorem le_of_outside {nelmts place : ℕ}
    (outside : ∀ i < nelmts, place < i * conversion.dstSize ∨
      i * conversion.dstSize + conversion.dstSize ≤ place) :
    nelmts * conversion.dstSize ≤ place := by
  induction nelmts with
  | zero => rw [Nat.zero_mul]; exact Nat.zero_le place
  | succ nelmts ih =>
      have below := ih fun i inside => outside i (Nat.lt_succ_of_lt inside)
      rw [Nat.succ_mul]
      exact (outside nelmts (Nat.lt_succ_self nelmts)).resolve_left below.not_gt

/-- Elements that shrink are converted from the first up. -/
theorem upward_converted (shrinks : conversion.dstSize ≤ conversion.srcSize) (nelmts : ℕ)
    (before : ByteBuffer) :
    conversion.Converted conversion.srcSize conversion.dstSize nelmts before
      (conversion.upward nelmts before) := by
  have all : (∀ i < nelmts, (conversion.upward nelmts before).load (i * conversion.dstSize)
      conversion.dstSize =
        conversion.convert (before.load (i * conversion.srcSize) conversion.srcSize)) ∧
      ∀ place, nelmts * conversion.dstSize ≤ place →
        conversion.upward nelmts before place = before place := by
    refine forLoop_counts (P := fun count (after : ByteBuffer) =>
      (∀ i < count, after.load (i * conversion.dstSize) conversion.dstSize =
        conversion.convert (before.load (i * conversion.srcSize) conversion.srcSize)) ∧
      ∀ place, count * conversion.dstSize ≤ place → after place = before place)
      (Nat.zero_le nelmts) ⟨fun i none => absurd none (Nat.not_lt_zero i), fun _ _ => rfl⟩ ?_
    rintro count current _ _ ⟨converted, unread⟩
    constructor
    · intro i inside
      rcases Nat.lt_succ_iff_lt_or_eq.mp inside with earlier | rfl
      · rw [← converted i earlier]
        refine load_congr fun k below => element_of_lt ?_
        have ends : (i + 1) * conversion.dstSize ≤ count * conversion.dstSize :=
          Nat.mul_le_mul_right _ earlier
        rw [Nat.succ_mul] at ends
        omega
      · rw [load_element]
        refine congrArg conversion.convert (load_congr fun k _ => unread _ ?_)
        exact (Nat.mul_le_mul_left i shrinks).trans (Nat.le_add_right _ _)
    · intro place behind
      rw [element_of_le behind]
      exact unread place ((Nat.mul_le_mul_right _ (Nat.le_succ count)).trans behind)
  exact ⟨all.1, fun place outside => all.2 place (le_of_outside outside)⟩

/-- Elements that grow are converted from the last down. -/
theorem downward_converted (grows : conversion.srcSize ≤ conversion.dstSize) (nelmts : ℕ)
    (before : ByteBuffer) :
    conversion.Converted conversion.srcSize conversion.dstSize nelmts before
      (conversion.downward nelmts before) := by
  induction nelmts generalizing before with
  | zero => exact ⟨fun i none => absurd none (Nat.not_lt_zero i), fun _ _ => rfl⟩
  | succ last ih =>
      obtain ⟨converted, others⟩ := ih (conversion.element last before)
      have behind : ∀ place, last * conversion.dstSize ≤ place →
          conversion.downward (last + 1) before place = conversion.element last before place := by
        intro place behind
        refine others place fun i inside => .inr ?_
        have ends : (i + 1) * conversion.dstSize ≤ last * conversion.dstSize :=
          Nat.mul_le_mul_right _ inside
        rw [Nat.succ_mul] at ends
        exact ends.trans behind
      constructor
      · intro i inside
        rcases Nat.lt_succ_iff_lt_or_eq.mp inside with earlier | rfl
        · rw [downward, converted i earlier]
          refine congrArg conversion.convert (load_congr fun k below => element_of_lt ?_)
          have sources : (i + 1) * conversion.srcSize ≤ last * conversion.dstSize :=
            Nat.mul_le_mul earlier grows
          rw [Nat.succ_mul] at sources
          omega
        · rw [← load_element]
          exact load_congr fun k _ => behind _ (Nat.le_add_right _ _)
      · intro place outside
        have past := le_of_outside outside
        rw [behind place ((Nat.mul_le_mul_right _ (Nat.le_succ last)).trans past)]
        exact element_of_le past

end Conversion

end HandsOn.Semantics
