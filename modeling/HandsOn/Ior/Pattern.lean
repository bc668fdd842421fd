import HandsOn.Ior.Offsets
import HandsOn.Mpi.Native
import HandsOn.Posix.File

/-!
# The pattern in a transfer

`FillBuffer` puts the rank with the time stamp and the offset into alternate words of a
transfer, `CompareBuffers` counts the words that are different.
-/

namespace HandsOn.Ior

open Mpi Posix Semantics

/-- `FillBuffer` -/
def fillBuffer (test : Param) (offset fillrank : ℕ) : List UInt64 :=
  let hi := UInt64.ofNat fillrank <<< 32
  let lo := test.timeStampSignatureValue.toUInt64
  (List.range (test.transferSize / 8)).map fun i =>
    if i % 2 = 0 then hi ||| lo else UInt64.ofNat (offset + i * 8)

section

variable (layout : Native UInt64 8)

/-- The buffer of a transfer, filled with the offset in the file or once with 0. -/
def transferBuffer (test : Param) (pretendRank offset : ℕ) : List UInt8 :=
  layout.encodeAll (fillBuffer test (if test.storeFileOffset then offset else 0) pretendRank)

/-- A word of a buffer. -/
def word (buffer : List UInt8) (i : ℕ) : UInt64 := layout.decode (pread buffer (i * 8) 8)

/-- `errorCount` of `CompareBuffers`: the words that are different. -/
def errorCount (expectedBuffer unknownBuffer : List UInt8) (size : ℕ) : ℕ :=
  (List.range (size / 8)).countP fun i =>
    word layout unknownBuffer i ≠ word layout expectedBuffer i

/-- `CompareBuffers` -/
def compareBuffers (test : Param) (expectedBuffer unknownBuffer : List UInt8) (size : ℕ) :
    Except String ℕ :=
  let errorCount := errorCount layout expectedBuffer unknownBuffer size
  if errorCount ≠ 0 ∧ test.quitOnError then .error "data check error, aborting execution"
  else .ok errorCount

variable {layout}

theorem length_transferBuffer (test : Test) (pretendRank offset : ℕ) :
    (transferBuffer layout test.1 pretendRank offset).length = test.1.transferSize := by
  rw [transferBuffer, Native.length_encodeAll, fillBuffer, List.length_map, List.length_range]
  exact Nat.div_mul_cancel test.transferSize_words

/-- A buffer compared with itself. -/
@[simp] theorem errorCount_self (buffer : List UInt8) (size : ℕ) :
    errorCount layout buffer buffer size = 0 := by
  simp [errorCount]

/-- The words of a transfer are words of the file. -/
theorem word_pread (content : List UInt8) {offset size i : ℕ} (inside : i * 8 + 8 ≤ size) :
    word layout (pread content (offset * 8) size) i = word layout content (offset + i) := by
  rw [word, word, pread, pread, pread, List.drop_take, List.drop_drop, List.take_take, Nat.add_mul,
    Nat.min_eq_left (by omega)]

/-- Only a difference ends a check. -/
theorem compareBuffers_error {test : Param} {expectedBuffer unknownBuffer : List UInt8} {size : ℕ}
    {message : String}
    (fails : compareBuffers layout test expectedBuffer unknownBuffer size = .error message) :
    errorCount layout expectedBuffer unknownBuffer size ≠ 0 ∧
      message = "data check error, aborting execution" := by
  simp only [compareBuffers] at fails
  split at fails
  case isTrue different => exact ⟨different.1, (Except.error.inj fails).symm⟩
  case isFalse => cases fails

/-- The errors in consecutive transfers are those in all their words. -/
theorem sum_errorCount (first second : List UInt8) {size : ℕ} (words : 8 ∣ size) (count : ℕ) :
    ((List.range count).map fun k => errorCount layout (pread first (k * size) size)
        (pread second (k * size) size) size).sum =
      errorCount layout first second (count * size) := by
  obtain ⟨length, rfl⟩ := words
  have divided : ∀ k, errorCount layout (pread first (k * (8 * length)) (8 * length))
      (pread second (k * (8 * length)) (8 * length)) (8 * length) =
        ((List.range length).map (k * length + ·)).countP fun i =>
          word layout second i ≠ word layout first i := by
    intro k
    rw [errorCount, Nat.mul_div_cancel_left _ (by omega), List.countP_map]
    apply List.countP_congr
    intro i inside
    have below := List.mem_range.mp inside
    have scaled : k * (8 * length) = k * length * 8 := by ring
    rw [Function.comp_apply, scaled, word_pread _ (by omega), word_pread _ (by omega)]
  have all := flatMap_range_mul count length id
  have words : count * (8 * length) / 8 = count * length := by
    rw [Nat.mul_left_comm, Nat.mul_div_cancel_left _ (by omega)]
  rw [List.map_id] at all
  rw [List.map_congr_left fun k _ => divided k, errorCount, words, ← all, List.countP_flatMap]
  rfl

end

end HandsOn.Ior
