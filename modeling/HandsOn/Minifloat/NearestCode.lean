import HandsOn.Minifloat.Fields
import HandsOn.Numeric.Nearest
import Mathlib.Data.Rat.Floor

/-!
# What the narrowing functions round to

Below the first normal number of the format the code is the truncated quotient by the
smallest subnormal. From there on, short of an overflow, its value is the nearest multiple
of the spacing of the format's values, a carry out of the mantissa included.
-/

namespace HandsOn.Minifloat

open HandsOn.Numeric

/-- Halves are rounded up in a division of natural numbers. -/
theorem round_natCast_div {half : ℕ} (positive : 0 < half) (a : ℕ) :
    round ((a : ℚ) / (2 * half : ℕ)) = ((a + half) / (2 * half) : ℕ) := by
  have nonzero : ((half : ℕ) : ℚ) ≠ 0 := by positivity
  have shifted : (a : ℚ) / (2 * half : ℕ) + 1 / 2 = ((a + half : ℕ) : ℚ) / (2 * half : ℕ) := by
    push_cast
    field_simp
  rw [round_eq, shifted, Rat.floor_natCast_div_natCast]
  rfl

/-- The binary exponent of a number. -/
theorem exponent_unique {x : ℚ} {e e' : ℤ} (low : (2 : ℚ) ^ e ≤ x) (high : x < 2 ^ (e + 1))
    (low' : (2 : ℚ) ^ e' ≤ x) (high' : x < 2 ^ (e' + 1)) : e = e' := by
  have below := (zpow_lt_zpow_iff_right₀ one_lt_two).mp (low.trans_lt high')
  have above := (zpow_lt_zpow_iff_right₀ one_lt_two).mp (low'.trans_lt high)
  omega

/-- The size of a normal number. -/
theorem Number.abs_normal {u : UInt32} {x : ℚ} (number : Number u x)
    (normal : 0 < number.exponent) :
    |x| = (2 ^ 23 + number.mantissa : ℕ) * 2 ^ ((number.exponent : ℤ) - 150) := by
  obtain ⟨below, succ⟩ := Nat.exists_eq_add_of_lt normal
  rw [Nat.zero_add] at succ
  have power : ((below + 1 : ℕ) : ℤ) - 150 = below + (1 - ((127 : ℕ) : ℤ) - (23 : ℕ)) := by
    push_cast
    ring
  rw [number.abs_eq, Number.code, succ, magnitude_normal number.bounded, Fpfmt.unit, binary32,
    power, zpow_add₀ two_ne_zero, zpow_natCast]
  push_cast
  ring

namespace Format

variable {u : UInt32} {x : ℚ}

/-- The smallest subnormal of a format, in those of `float`. -/
theorem unit_eq (format : Format) :
    format.fpfmt.unit =
      (2 ^ (23 - format.narrowing.msize + format.narrowing.delta) : ℕ) * binary32.unit := by
  cases format <;> norm_num [fpfmt, narrowing, f8e4m3, f8e5m2, f6e3m2, f4e2m1, Fpfmt.unit, binary32]

/-- The numbers below the first normal one of the format. -/
theorem low_iff (format : Format) (number : Number u x) :
    number.exponent ≤ format.narrowing.delta ↔
      |x| < (2 ^ format.fpfmt.msize : ℕ) * format.fpfmt.unit := by
  have mantissaBits := format.paired.fits.mantissa
  have whole : 2 ^ format.fpfmt.msize * 2 ^ (23 - format.narrowing.msize + format.narrowing.delta) =
      magnitude 23 ((format.narrowing.delta + 1) * 2 ^ 23 + 0) := by
    rw [magnitude_normal (Nat.two_pow_pos 23), Nat.add_zero, ← format.paired.msize, ← Nat.pow_add,
      ← Nat.pow_add]
    congr 1
    omega
  rw [unit_eq, ← mul_assoc, ← Nat.cast_mul, whole, number.abs_eq,
    mul_lt_mul_iff_left₀ binary32.unit_pos, Nat.cast_lt, (magnitude_strictMono 23).lt_iff_lt]
  have bounded := number.bounded
  rw [Number.code]
  omega

/-- Below the first normal number the quotient by the smallest subnormal is truncated. -/
theorem reading_of_low (format : Format) (number : Number u x)
    (low : number.exponent ≤ format.narrowing.delta) :
    format.fpfmt.reading (format.code number) =
      .finite (⌊|x| / format.fpfmt.unit⌋ * format.fpfmt.unit) := by
  have fits := format.paired.fits
  have field : number.code / 2 ^ 23 = number.exponent := exponent_eq number.bounded
  have small : number.code / 2 ^ 23 ≤ format.narrowing.delta := field.trans_le low
  have below : format.code number < 2 ^ format.fpfmt.msize := by
    rw [code, Narrowing.narrowed_of_low fits small, ← format.paired.msize]
    exact Narrowing.rounded_lt fits small
  have quotient : ⌊|x| / format.fpfmt.unit⌋ = (format.code number : ℤ) := by
    rw [code, Narrowing.narrowed_of_low fits small, Narrowing.rounded, if_pos small, unit_eq,
      number.abs_eq, mul_div_mul_right _ _ binary32.unit_pos.ne', Rat.floor_natCast_div_natCast]
    rfl
  have several := fits.several
  rw [quotient, Fpfmt.reading, if_neg, magnitude_subnormal below, Int.cast_natCast]
  rw [Nat.div_eq_of_lt below, ← fits.expMax]
  omega

/-- The spacing of the format's values at a number. -/
def spacing (format : Format) (number : Number u x) : ℚ :=
  2 ^ ((number.exponent : ℤ) - 127 - format.fpfmt.msize)

theorem spacing_pos (format : Format) (number : Number u x) : 0 < format.spacing number :=
  zpow_pos two_pos _

/-- The exponent field of a normal number is its binary exponent. -/
theorem spacing_eq (format : Format) (number : Number u x) (normal : 0 < number.exponent) {e : ℤ}
    (low : (2 : ℚ) ^ e ≤ |x|) (high : |x| < 2 ^ (e + 1)) :
    2 ^ (e - format.fpfmt.msize) = format.spacing number := by
  have bounded := number.bounded
  have scale : (0 : ℚ) < 2 ^ ((number.exponent : ℤ) - 150) := zpow_pos two_pos _
  have binade : ∀ k : ℕ, (2 : ℚ) ^ ((number.exponent : ℤ) - 127 + k) =
      (2 ^ (23 + k) : ℕ) * 2 ^ ((number.exponent : ℤ) - 150) := by
    intro k
    push_cast
    rw [← zpow_natCast, ← zpow_add₀ two_ne_zero]
    congr 1
    push_cast
    ring
  have same : e = (number.exponent : ℤ) - 127 := by
    refine exponent_unique low high ?_ ?_
    · rw [number.abs_normal normal, ← Int.add_zero (_ - 127)]
      refine (binade 0).trans_le (mul_le_mul_of_nonneg_right (Nat.cast_le.mpr ?_) scale.le)
      omega
    · rw [number.abs_normal normal]
      refine (mul_lt_mul_of_pos_right (Nat.cast_lt.mpr ?_) scale).trans_eq (binade 1).symm
      omega
  rw [spacing, same]

/-- A normal number in units of the spacing. -/
theorem div_spacing (format : Format) (number : Number u x) (normal : 0 < number.exponent) :
    |x| / format.spacing number =
      ((2 ^ 23 + number.mantissa : ℕ) : ℚ) / (2 * 2 ^ (22 - format.fpfmt.msize) : ℕ) := by
  have mantissaBits := format.paired.fits.mantissa
  rw [format.paired.msize] at mantissaBits
  have width : 2 * 2 ^ (22 - format.fpfmt.msize) = 2 ^ (23 - format.fpfmt.msize) := by
    rw [← Nat.pow_succ']
    congr 1
    omega
  have scaled : format.spacing number =
      (2 ^ (23 - format.fpfmt.msize) : ℕ) * 2 ^ ((number.exponent : ℤ) - 150) := by
    have power : (number.exponent : ℤ) - 127 - format.fpfmt.msize =
        (23 - format.fpfmt.msize : ℕ) + ((number.exponent : ℤ) - 150) := by omega
    rw [spacing, power, zpow_add₀ two_ne_zero, zpow_natCast]
    push_cast
    rfl
  have scale : (2 : ℚ) ^ ((number.exponent : ℤ) - 150) ≠ 0 := (zpow_pos two_pos _).ne'
  rw [scaled, number.abs_normal normal, mul_div_mul_right _ _ scale, width]

/-- The numbers from the first normal one of the format on. -/
theorem high_of_normal (format : Format) (number : Number u x)
    (normal : (2 ^ format.fpfmt.msize : ℕ) * format.fpfmt.unit ≤ |x|) :
    format.narrowing.delta < number.exponent :=
  Nat.lt_of_not_ge fun low => ((format.low_iff number).mp low).not_ge normal

section High

variable (format : Format) (number : Number u x) {above : ℕ}
  (exponent : number.exponent = format.narrowing.delta + above + 1)
include exponent

/-- The exponent and the rounded mantissa of a code short of an overflow. -/
theorem code_of_high (within : ¬ format.Overflows number) :
    format.code number = (above + 1) * 2 ^ format.fpfmt.msize +
      (number.mantissa + 2 ^ (22 - format.fpfmt.msize)) / 2 ^ (23 - format.fpfmt.msize) := by
  have high : format.narrowing.delta < number.exponent := by omega
  rw [code, Narrowing.narrowed, if_neg (show ¬ _ ≤ _ from within), Number.code,
    Narrowing.rounded_normal format.paired.fits number.bounded high, ← format.paired.msize,
    exponent]
  congr 2
  omega

/-- The values with an exponent are the multiples of the unit by a power of two. -/
theorem two_pow_mul_unit : (2 : ℚ) ^ above * format.fpfmt.unit = format.spacing number := by
  have mantissaBits := format.paired.fits.mantissa
  rw [format.paired.msize] at mantissaBits
  have power : (number.exponent : ℤ) - 127 - format.fpfmt.msize =
      above + ((23 - format.fpfmt.msize + format.narrowing.delta : ℕ) +
        (1 - ((127 : ℕ) : ℤ) - (23 : ℕ))) := by omega
  rw [unit_eq, format.paired.msize, Fpfmt.unit, binary32, spacing, power, zpow_add₀ two_ne_zero,
    zpow_add₀ two_ne_zero, zpow_natCast, zpow_natCast]
  push_cast
  rfl

end High

/-- A code short of an overflow stands for the nearest multiple of the spacing. -/
theorem magnitude_of_high (format : Format) (number : Number u x)
    (high : format.narrowing.delta < number.exponent) (within : ¬ format.Overflows number) :
    magnitude format.fpfmt.msize (format.code number) * format.fpfmt.unit =
      round (|x| / format.spacing number) * format.spacing number := by
  have mantissaBits := format.paired.fits.mantissa
  have bounded := number.bounded
  obtain ⟨above, exponent⟩ := Nat.exists_eq_add_of_lt high
  rw [format.paired.msize] at mantissaBits
  have width : 2 * 2 ^ (22 - format.fpfmt.msize) = 2 ^ (23 - format.fpfmt.msize) := by
    rw [← Nat.pow_succ']
    congr 1
    omega
  have hidden : 2 ^ 23 = 2 ^ (23 - format.fpfmt.msize) * 2 ^ format.fpfmt.msize := by
    rw [← Nat.pow_add]
    congr 1
    omega
  have positive := Nat.two_pow_pos (23 - format.fpfmt.msize)
  have carry : (number.mantissa + 2 ^ (22 - format.fpfmt.msize)) / 2 ^ (23 - format.fpfmt.msize) ≤
      2 ^ format.fpfmt.msize := by
    apply Nat.lt_succ_iff.mp
    apply Nat.div_lt_of_lt_mul
    rw [Nat.mul_succ, ← hidden]
    omega
  have quotient : (2 ^ 23 + number.mantissa + 2 ^ (22 - format.fpfmt.msize)) /
      2 ^ (23 - format.fpfmt.msize) = 2 ^ format.fpfmt.msize +
        (number.mantissa + 2 ^ (22 - format.fpfmt.msize)) / 2 ^ (23 - format.fpfmt.msize) := by
    rw [Nat.add_assoc, hidden, Nat.mul_add_div positive]
  rw [format.code_of_high number exponent within, magnitude_carry carry,
    div_spacing format number (by omega), round_natCast_div (Nat.two_pow_pos _), width, quotient,
    ← format.two_pow_mul_unit number exponent]
  generalize (number.mantissa + 2 ^ (22 - format.fpfmt.msize)) / _ = carried
  push_cast
  ring

end Format

end HandsOn.Minifloat
