import HandsOn.Bfloat16.Cast
import HandsOn.Minifloat.Agreement

/-!
# The bits of a rounded `float`

`f32_to_bf16` adds half of what it cuts off, and lets the carry run. Below a NaN the carry
does not reach the sign, so that the upper half is the rounded code below the same sign. A
NaN is cut off, with a bit set that keeps it a NaN.
-/

namespace HandsOn.Bfloat16

open HandsOn.Minifloat

/-- The fields of a masked word are those bits of the word. -/
theorem and_shiftLeft (word mask shift : ℕ) :
    word &&& (mask <<< shift) = ((word >>> shift) &&& mask) <<< shift := by
  apply Nat.eq_of_testBit_eq
  intro i
  rw [Nat.testBit_and, Nat.testBit_shiftLeft, Nat.testBit_shiftLeft, Nat.testBit_and,
    Nat.testBit_shiftRight]
  by_cases above : shift ≤ i
  · simp [above]
  · simp [above]

theorem toNat_bf16ToF32 (src : UInt16) : (bf16ToF32 src).toNat = src.toNat * 2 ^ 16 := by
  have bounded := src.toNat_lt
  rw [bf16ToF32, UInt32.toNat_shiftLeft, UInt16.toNat_toUInt32]
  change src.toNat <<< 16 % 2 ^ 32 = _
  rw [Nat.shiftLeft_eq, Nat.mod_eq_of_lt (by omega)]

section Code

variable {u : UInt32} {negative : Bool} {code : ℕ} (bounded : code < 2 ^ 31)
  (bits : u.toNat = negative.toNat * 2 ^ 31 + code)
include bounded bits

/-- What a `float` stands for, by its sign and the other bits. -/
theorem floatValue_eq : floatValue u = .signed negative (binary32.reading code) := by
  rw [floatValue, bits]
  exact Fpfmt.widenEntry_eq packed_binary32 negative bounded

/-- The test for a NaN. -/
theorem isNan_iff :
    (u &&& 0x7F800000 = 0x7F800000 ∧ u &&& 0x007FFFFF ≠ 0) ↔ 255 * 2 ^ 23 < code := by
  obtain ⟨_, exponent, mantissa⟩ := Fpfmt.fields_eq packed_binary32 negative bounded
  have mask : (0x7F800000 : UInt32).toNat = 255 <<< 23 := by decide
  have high : u &&& 0x7F800000 = 0x7F800000 ↔ code / 2 ^ 23 = 255 := by
    have field : (negative.toNat * 2 ^ 31 + code) >>> 23 &&& 255 = code / 2 ^ 23 := exponent
    rw [← UInt32.toNat_inj, UInt32.toNat_and, bits, mask, and_shiftLeft, field, Nat.shiftLeft_eq,
      Nat.shiftLeft_eq]
    exact Nat.mul_left_inj (Nat.two_pow_pos 23).ne'
  have low : u &&& 0x007FFFFF = 0 ↔ code % 2 ^ 23 = 0 := by
    have field : (negative.toNat * 2 ^ 31 + code) &&& (0x007FFFFF : UInt32).toNat =
        code % 2 ^ 23 := mantissa
    rw [← UInt32.toNat_inj, UInt32.toNat_and, bits, field]
    rfl
  rw [high, ne_eq, low]
  omega

/-- A number or an infinity is rounded by a carry. -/
theorem toNat_f32ToBf16 (number : code ≤ 255 * 2 ^ 23) :
    (f32ToBf16 u).toNat = negative.toNat * 2 ^ 15 + (code + 2 ^ 15) / 2 ^ 16 := by
  have sign := Bool.toNat_le negative
  rw [f32ToBf16, if_neg (mt (isNan_iff bounded bits).mp number.not_gt), UInt32.toNat_toUInt16,
    UInt32.toNat_shiftRight, UInt32.toNat_add, bits]
  simp only [UInt32.reduceToNat, Nat.reduceMod, Nat.reducePow, Nat.shiftRight_eq_div_pow]
  omega

/-- A NaN stays one, with its sign. -/
theorem exists_nan (nan : 255 * 2 ^ 23 < code) :
    ∃ payload, 0 < payload ∧ payload < 2 ^ 7 ∧
      (f32ToBf16 u).toNat = negative.toNat * 2 ^ 15 + (255 * 2 ^ 7 + payload) := by
  have sign := Bool.toNat_le negative
  have low : code / 2 ^ 16 % 2 ^ 7 < 2 ^ 7 := Nat.mod_lt _ (Nat.two_pow_pos 7)
  have within : code / 2 ^ 16 % 2 ^ 7 ||| 0x40 < 2 ^ 7 := Nat.or_lt_two_pow low (by decide)
  have upper : (negative.toNat * 2 ^ 31 + code) / 2 ^ 16 =
      (negative.toNat * 2 ^ 8 + 255) * 2 ^ 7 + code / 2 ^ 16 % 2 ^ 7 := by omega
  refine ⟨code / 2 ^ 16 % 2 ^ 7 ||| 0x40, ?_, within, ?_⟩
  · exact Nat.lt_of_lt_of_le (by decide) Nat.right_le_or
  · rw [f32ToBf16, if_pos ((isNan_iff bounded bits).mpr nan), UInt32.toNat_toUInt16,
      UInt32.toNat_or, UInt32.toNat_shiftRight, bits]
    simp only [UInt32.reduceToNat, Nat.reduceMod, Nat.shiftRight_eq_div_pow]
    rw [upper, ← shiftLeft_or_eq _ low, Nat.or_assoc, shiftLeft_or_eq _ within]
    omega

end Code

end HandsOn.Bfloat16
