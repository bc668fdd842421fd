import HandsOn.Bfloat16.Readings
import HandsOn.Numeric.Nearest

/-!
# `float` to `bfloat16`

Adding half of `2 ^ 16` to a code and cutting off the lower half finds the nearer one of the
two neighbours, the one farther from zero if they are equally near. The carry runs into the
exponent, and from the last number to the infinity.
-/

namespace HandsOn.Bfloat16

open HandsOn.Minifloat HandsOn.Numeric

/-- The rounded code is that of the nearest value, the larger one of two. -/
theorem isNearestAway_size (code : ℕ) :
    IsNearestAway (signed size) (magnitude 23 code * binary32.unit)
      (size ((code + 2 ^ 15) / 2 ^ 16)) := by
  obtain ⟨gap, evenly⟩ := exists_gap (code / 2 ^ 16)
  have unit := binary32.unit_pos
  have split : code / 2 ^ 16 * 2 ^ 16 + code % 2 ^ 16 = code := Nat.div_add_mod' code (2 ^ 16)
  have remainder : code % 2 ^ 16 < 2 ^ 16 := Nat.mod_lt _ (Nat.two_pow_pos 16)
  have here := evenly _ remainder.le
  have next := evenly _ (Nat.le_refl (2 ^ 16))
  rw [split] at here
  rw [← Nat.succ_mul] at next
  have low : size (code / 2 ^ 16) ≤ magnitude 23 code * binary32.unit := by
    rw [size, here]
    exact mul_le_mul_of_nonneg_right (Nat.cast_le.mpr (Nat.le_add_right _ _)) unit.le
  have high : (magnitude 23 code : ℚ) * binary32.unit < size (code / 2 ^ 16 + 1) := by
    refine mul_lt_mul_of_pos_right (Nat.cast_lt.mpr (magnitude_strictMono 23 ?_)) unit
    omega
  have nearest := isNearestAway_of_neighbours size_strictMono size_zero low high
  have gapPos : 0 < gap := by
    have less := size_strictMono (Nat.lt_succ_self (code / 2 ^ 16))
    rw [size, size, mul_lt_mul_iff_left₀ unit, Nat.cast_lt, next] at less
    omega
  have nearer : magnitude 23 code * binary32.unit - size (code / 2 ^ 16) <
      size (code / 2 ^ 16 + 1) - magnitude 23 code * binary32.unit ↔ code % 2 ^ 16 < 2 ^ 15 := by
    rw [size, size, next, here, ← sub_mul, ← sub_mul, mul_lt_mul_iff_left₀ unit, Nat.cast_add,
      Nat.cast_add, add_sub_cancel_left, add_sub_add_left_eq_sub, lt_sub_iff_add_lt, ← Nat.cast_add,
      Nat.cast_lt, ← Nat.add_mul, Nat.mul_lt_mul_right gapPos]
    omega
  convert nearest using 1
  by_cases lower : code % 2 ^ 16 < 2 ^ 15
  · rw [if_pos (nearer.mpr lower)]
    congr 1
    omega
  · rw [if_neg (mt nearer.mp lower)]
    congr 1
    omega

/-- So does it with a sign. -/
theorem isNearestAway_withSign (negative : Bool) (code : ℕ) :
    IsNearestAway (signed size) (withSign negative (magnitude 23 code * binary32.unit))
      (withSign negative (size ((code + 2 ^ 15) / 2 ^ 16))) := by
  cases negative with
  | false => exact isNearestAway_size code
  | true => exact (isNearestAway_size code).neg fun _ => neg_mem_signed

theorem bfloat16Values_subset : bfloat16Values ⊆ signed size := by
  intro z member
  obtain ⟨k, _, absolute⟩ := mem_bfloat16Values.mp member
  exact ⟨k, absolute⟩

/-- Half a step below the first power of two that `float` does not have. -/
def threshold : ℚ := 2 ^ 128 - 2 ^ 119

theorem threshold_eq : threshold = magnitude 23 (0x7F80 * 2 ^ 16 - 2 ^ 15) * binary32.unit := by
  decide +kernel

section Rounded

variable {u : UInt32} {x : ℚ} (number : Number u x)

theorem number_code_lt : number.code < 255 * 2 ^ 23 := by
  have exponent := number.number
  have mantissa := number.bounded
  have fields : number.code = number.exponent * 2 ^ 23 + number.mantissa := rfl
  omega

/-- The bits of a rounded number. -/
theorem toNat_f32ToBf16_number :
    (f32ToBf16 u).toNat = number.negative.toNat * 2 ^ 15 + (number.code + 2 ^ 15) / 2 ^ 16 := by
  have bounded := number_code_lt number
  exact toNat_f32ToBf16 (by omega) number.bits bounded.le

/-- A number below the threshold is rounded to a number. -/
theorem code_lt_iff : (number.code + 2 ^ 15) / 2 ^ 16 < 0x7F80 ↔ |x| < threshold := by
  rw [number.abs_eq, threshold_eq, mul_lt_mul_iff_left₀ binary32.unit_pos, Nat.cast_lt,
    (magnitude_strictMono 23).lt_iff_lt]
  omega

/-- The value of a number, with its sign. -/
theorem value_eq : x = withSign number.negative (magnitude 23 number.code * binary32.unit) :=
  number.value_eq

end Rounded

/-- The law of `f32_to_bf16`, by the widened result. -/
structure Bfloat16Law : Prop where
  sign : ∀ u, isNegative (bf16ToF32 (f32ToBf16 u)) = isNegative u
  nan : ∀ u, floatValue u = .nan → floatValue (bf16ToF32 (f32ToBf16 u)) = .nan
  nearest : ∀ u x, floatValue u = .finite x → |x| < threshold →
    ∃ y, floatValue (bf16ToF32 (f32ToBf16 u)) = .finite y ∧ IsNearestAway bfloat16Values x y
  large : ∀ u x, floatValue u = .finite x → threshold ≤ |x| →
    floatValue (bf16ToF32 (f32ToBf16 u)) = .infinite (isNegative u)
  infinite : ∀ u negative, floatValue u = .infinite negative →
    floatValue (bf16ToF32 (f32ToBf16 u)) = .infinite negative
  mono : ∀ u v, (floatValue u).le (floatValue v) →
    (floatValue (bf16ToF32 (f32ToBf16 u))).le (floatValue (bf16ToF32 (f32ToBf16 v)))
  inverse : ∀ src, floatValue (bf16ToF32 src) ≠ .nan → f32ToBf16 (bf16ToF32 src) = src

section Code

variable {u : UInt32} {negative : Bool} {code : ℕ} (bounded : code < 2 ^ 31)
  (bits : u.toNat = negative.toNat * 2 ^ 31 + code)
include bounded bits

theorem isNegative_eq : isNegative u = negative := by
  rw [isNegative, bits, Nat.shiftRight_eq_div_pow, exponent_eq bounded]
  cases negative <;> rfl

/-- The NaNs have the codes above that of the infinity. -/
theorem floatValue_ne_nan_iff : floatValue u ≠ .nan ↔ code ≤ 255 * 2 ^ 23 := by
  rw [floatValue_eq bounded bits, Format.signed_ne_nan]
  refine ⟨fun proper => Nat.le_of_not_lt fun nan => proper (reading_nan nan bounded), ?_⟩
  exact reading_ne_nan

/-- The upper half of a rounded `float`, a NaN for a NaN only. -/
theorem exists_rounded : ∃ k < 2 ^ 15, (f32ToBf16 u).toNat = negative.toNat * 2 ^ 15 + k ∧
    (code ≤ 255 * 2 ^ 23 → k = (code + 2 ^ 15) / 2 ^ 16) ∧ (255 * 2 ^ 23 < code → 0x7F80 < k) := by
  rcases Nat.lt_or_ge (255 * 2 ^ 23) code with nan | proper
  · obtain ⟨payload, positive, small, rounded⟩ := exists_nan bounded bits nan
    exact ⟨_, by omega, rounded, fun proper => by omega, fun _ => by omega⟩
  · exact ⟨_, by omega, toNat_f32ToBf16 bounded bits proper, fun _ => rfl, fun nan => by omega⟩

end Code

/-- Rounding keeps the order of numbers and infinities. -/
theorem CodeLe.rounded {negative negative' : Bool} {code code' : ℕ}
    (ordered : CodeLe negative code negative' code') :
    CodeLe negative ((code + 2 ^ 15) / 2 ^ 16 * 2 ^ 16) negative'
      ((code' + 2 ^ 15) / 2 ^ 16 * 2 ^ 16) := by
  have mono : ∀ {a b : ℕ}, a ≤ b →
      (a + 2 ^ 15) / 2 ^ 16 * 2 ^ 16 ≤ (b + 2 ^ 15) / 2 ^ 16 * 2 ^ 16 := fun le =>
    Nat.mul_le_mul_right _ (Nat.div_le_div_right (Nat.add_le_add_right le _))
  cases negative <;> cases negative'
  · exact mono ordered
  · obtain ⟨rfl, rfl⟩ := ordered
    exact ⟨rfl, rfl⟩
  · trivial
  · exact mono ordered

/-- The law holds for all bit patterns. -/
theorem bfloat16_law : Bfloat16Law where
  sign u := by
    obtain ⟨negative, code, bounded, bits⟩ := exists_sign u
    obtain ⟨k, within, rounded, _⟩ := exists_rounded bounded bits
    obtain ⟨bounded', widened⟩ := bits_bf16ToF32 within rounded
    rw [isNegative_eq bounded' widened, isNegative_eq bounded bits]
  nan u nan := by
    obtain ⟨negative, code, bounded, bits⟩ := exists_sign u
    obtain ⟨k, within, rounded, _, above⟩ := exists_rounded bounded bits
    have top := mt (floatValue_ne_nan_iff bounded bits).mpr (not_not.mpr nan)
    exact floatValue_bf16ToF32_nan rounded (above (Nat.lt_of_not_ge top)) within
  nearest u x finite small := by
    obtain ⟨number⟩ := exists_number finite
    have code := (code_lt_iff number).mpr small
    have value := floatValue_bf16ToF32_number (toNat_f32ToBf16_number number) code
    have nearest := isNearestAway_withSign number.negative number.code
    rw [← value_eq number] at nearest
    exact ⟨_, value, nearest.subset bfloat16Values_subset ⟨_, value⟩⟩
  large u x finite atLeast := by
    obtain ⟨number⟩ := exists_number finite
    have code := mt (code_lt_iff number).mp atLeast.not_gt
    have last := number_code_lt number
    rw [number.isNegative_eq]
    exact floatValue_bf16ToF32_infinite (toNat_f32ToBf16_number number) (by omega)
  infinite u negative value := by
    obtain ⟨negative', code, bounded, bits⟩ := exists_sign u
    have proper := (floatValue_ne_nan_iff bounded bits).mp
      (by rw [value]; exact Reading.noConfusion)
    rw [floatValue_eq bounded bits] at value
    rcases Nat.lt_or_eq_of_le proper with number | rfl
    · rw [reading_number number, signed_finite] at value
      cases value
    · rw [reading_infinite, signed_infinite] at value
      cases value
      exact floatValue_bf16ToF32_infinite (toNat_f32ToBf16 bounded bits (Nat.le_refl _)) rfl
  mono u v ordered := by
    obtain ⟨negative, code, bounded, bits⟩ := exists_sign u
    obtain ⟨negative', code', bounded', bits'⟩ := exists_sign v
    have proper := (floatValue_ne_nan_iff bounded bits).mp (ne_nan_of_le ordered).1
    have proper' := (floatValue_ne_nan_iff bounded' bits').mp (ne_nan_of_le ordered).2
    rw [floatValue_eq bounded bits, floatValue_eq bounded' bits',
      signed_le_iff proper proper'] at ordered
    rw [floatValue_bf16ToF32 (by omega) (toNat_f32ToBf16 bounded bits proper),
      floatValue_bf16ToF32 (by omega) (toNat_f32ToBf16 bounded' bits' proper'),
      signed_le_iff (by omega) (by omega)]
    exact ordered.rounded
  inverse src proper := by
    obtain ⟨negative, k, within, bits⟩ := exists_sign16 src
    obtain ⟨bounded, widened⟩ := bits_bf16ToF32 within bits
    have code := (floatValue_ne_nan_iff bounded widened).mp proper
    apply UInt16.toNat_inj.mp
    rw [toNat_f32ToBf16 bounded widened code, bits]
    omega

end HandsOn.Bfloat16
