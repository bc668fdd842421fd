import HandsOn.Bfloat16.Readings

/-!
# `double` to `float`

The cast is described by its steps: the results at least as large as an even code are those
of the numbers from the midpoint below that code on. Subnormal results are a rounded quotient
of the magnitude, normal ones a rounded quotient of the code.
-/

namespace HandsOn.Bfloat16

open HandsOn.Minifloat

theorem packed_binary64 : binary64.Packed := ⟨rfl, rfl, rfl⟩

theorem unit_binary32 : binary32.unit = floatUnit * binary64.unit := by decide +kernel

theorem floatUnit_eq : floatUnit = 2 ^ 896 * 2 ^ 29 := by decide +kernel

theorem floatUnit_pos : 0 < floatUnit := by decide +kernel

/-- A quotient exceeds an odd number if the division exceeds the next half. -/
theorem lt_divNearestEven_iff (number : ℕ) {divisor n : ℕ} (positive : 0 < divisor)
    (odd : n % 2 = 1) :
    n < divNearestEven number divisor ↔ (2 * n + 1) * divisor ≤ 2 * number := by
  have remainder : number % divisor < divisor := Nat.mod_lt _ positive
  have whole : 2 * number = (2 * (number / divisor)) * divisor + 2 * (number % divisor) := by
    have parts := Nat.div_add_mod' number divisor
    rw [Nat.mul_assoc]
    omega
  rw [divNearestEven, whole]
  generalize number / divisor = quotient
  generalize number % divisor = rest at remainder
  rcases Nat.lt_trichotomy n quotient with below | rfl | above
  · have steps : (2 * n + 1) * divisor ≤ 2 * quotient * divisor :=
      Nat.mul_le_mul_right _ (by omega)
    refine iff_of_true ?_ (steps.trans (Nat.le_add_right _ _))
    split <;> omega
  · rw [Nat.add_mul, Nat.one_mul, Nat.add_le_add_iff_left]
    split <;> omega
  · have steps : (2 * quotient + 3) * divisor ≤ (2 * n + 1) * divisor :=
      Nat.mul_le_mul_right _ (by omega)
    rw [Nat.add_mul] at steps
    refine iff_of_false ?_ (by omega)
    split <;> omega

/-- The midpoint of two adjacent normal numbers is a number with more mantissa bits, the next
of which is set. -/
theorem two_mul_magnitude (bias : ℕ) {code : ℕ} (normal : 2 ^ 23 ≤ code) :
    2 * magnitude 52 ((code + bias * 2 ^ 23) * 2 ^ 29 + 2 ^ 28) =
      (magnitude 23 code + magnitude 23 (code + 1)) * (2 ^ bias * 2 ^ 29) := by
  obtain ⟨exponent, mantissa, bounded, rfl⟩ := exists_fields 23 code
  obtain ⟨exponent, rfl⟩ : ∃ below, exponent = below + 1 := ⟨exponent - 1, by omega⟩
  have code : ((exponent + 1) * 2 ^ 23 + mantissa + bias * 2 ^ 23) * 2 ^ 29 + 2 ^ 28 =
      (exponent + bias + 1) * 2 ^ 52 + (mantissa * 2 ^ 29 + 2 ^ 28) := by ring
  have fits : mantissa * 2 ^ 29 + 2 ^ 28 < 2 ^ 52 := by omega
  rw [code, magnitude_normal fits, Nat.add_assoc _ mantissa, magnitude_normal bounded,
    magnitude_carry (by omega : mantissa + 1 ≤ 2 ^ 23)]
  ring

/-- Up to the first normal number a magnitude is its code. -/
theorem magnitude_of_le {code : ℕ} (low : code ≤ 2 ^ 23) : magnitude 23 code = code := by
  rcases Nat.lt_or_eq_of_le low with subnormal | rfl
  · exact magnitude_subnormal subnormal
  · exact @magnitude_carry 23 0 0 (Nat.zero_le _)

/-- The first normal `float`, among the magnitudes of `double`. -/
theorem magnitude_border : magnitude 52 (897 * 2 ^ 52) = 2 ^ 23 * floatUnit := by
  have first := @magnitude_normal 52 896 0 (Nat.two_pow_pos 52)
  rw [floatUnit_eq]
  generalize 2 ^ 896 = scale at first ⊢
  refine first.trans ?_
  ring

/-- The result of the cast exceeds an odd code if the magnitude exceeds the next midpoint. -/
theorem lt_narrowCode_iff (code : ℕ) {below : ℕ} (odd : below % 2 = 1)
    (bounded : below < 255 * 2 ^ 23) :
    below < narrowCode code ↔
      (magnitude 23 below + magnitude 23 (below + 1)) * floatUnit ≤ 2 * magnitude 52 code := by
  have first := magnitude_of_le (Nat.le_refl (2 ^ 23))
  have mono := (magnitude_strictMono 23).monotone
  have border := magnitude_border
  have positive := floatUnit_pos
  rw [narrowCode, Nat.shiftRight_eq_div_pow]
  by_cases low : code / 2 ^ 52 ≤ 896
  · have small : magnitude 52 code < magnitude 52 (897 * 2 ^ 52) :=
      magnitude_strictMono 52 (by omega)
    rw [if_pos low, lt_divNearestEven_iff _ positive odd]
    rcases Nat.lt_or_ge below (2 ^ 23) with subnormal | normal
    · have odd : below + (below + 1) = 2 * below + 1 := by omega
      have next : magnitude 23 (below + 1) = below + 1 := magnitude_of_le subnormal
      rw [magnitude_of_le subnormal.le, next, odd]
    · have here := mono normal
      have next : magnitude 23 (2 ^ 23) ≤ magnitude 23 (below + 1) := mono (by omega)
      have codes := Nat.mul_le_mul_right floatUnit (by omega : 2 * 2 ^ 23 ≤ 2 * below + 1)
      have sizes := Nat.mul_le_mul_right floatUnit
        (by omega : 2 * 2 ^ 23 ≤ magnitude 23 below + magnitude 23 (below + 1))
      constructor <;> intro <;> omega
  · have large : magnitude 52 (897 * 2 ^ 52) ≤ magnitude 52 code :=
      (magnitude_strictMono 52).monotone (by omega)
    have shift : (2 * (below + 896 * 2 ^ 23) + 1) * 2 ^ 29 ≤ 2 * code ↔
        (below + 896 * 2 ^ 23) * 2 ^ 29 + 2 ^ 28 ≤ code := by omega
    have quotient : below < min (divNearestEven code (2 ^ 29) - 896 <<< 23) 0x7F800000 ↔
        below + 896 * 2 ^ 23 < divNearestEven code (2 ^ 29) := by
      rw [lt_min_iff, Nat.lt_sub_iff_add_lt]
      exact and_iff_left bounded
    rw [if_neg low, quotient, lt_divNearestEven_iff _ (Nat.two_pow_pos 29) (by omega), shift]
    rcases Nat.lt_or_ge below (2 ^ 23) with subnormal | normal
    · have here := mono subnormal.le
      have next : magnitude 23 (below + 1) ≤ magnitude 23 (2 ^ 23) := mono subnormal
      have sizes := Nat.mul_le_mul_right floatUnit
        (by omega : magnitude 23 below + magnitude 23 (below + 1) ≤ 2 * 2 ^ 23)
      exact iff_of_true (by omega) (by omega)
    · rw [floatUnit_eq, ← two_mul_magnitude 896 normal, Nat.mul_le_mul_left_iff two_pos,
        (magnitude_strictMono 52).le_iff_le]

/-- The cast does not leave the codes of numbers and of the infinity. -/
theorem narrowCode_le (code : ℕ) : narrowCode code ≤ 255 * 2 ^ 23 := by
  rw [narrowCode, Nat.shiftRight_eq_div_pow]
  split
  · rename_i low
    refine Nat.le_of_not_lt fun above => ?_
    have small : magnitude 52 code < magnitude 52 (897 * 2 ^ 52) :=
      magnitude_strictMono 52 (by omega)
    have beyond : 2 ^ 23 + 1 < divNearestEven (magnitude 52 code) floatUnit := by omega
    rw [lt_divNearestEven_iff _ floatUnit_pos (by omega)] at beyond
    rw [magnitude_border] at small
    omega
  · exact min_le_right _ _

/-- The value of a `double`, by its sign and the other bits. -/
theorem exists_double {d : UInt64} {x : ℚ} (finite : doubleValue d = .finite x) :
    ∃ (negative : Bool) (code : ℕ), code < 2047 * 2 ^ 52 ∧
      d.toNat = negative.toNat * 2 ^ 63 + code ∧
      x = withSign negative (magnitude 52 code * binary64.unit) := by
  have word := d.toNat_lt
  obtain ⟨negative, code, bounded, bits⟩ : ∃ (negative : Bool) (code : ℕ), code < 2 ^ 63 ∧
      d.toNat = negative.toNat * 2 ^ 63 + code := by
    by_cases negative : 2 ^ 63 ≤ d.toNat
    · exact ⟨true, d.toNat - 2 ^ 63, by omega, by rw [Bool.toNat_true]; omega⟩
    · exact ⟨false, d.toNat, by omega, by rw [Bool.toNat_false]; omega⟩
  have entry : Reading.signed negative (binary64.reading code) = .finite x := by
    rw [← finite, doubleValue, bits]
    exact (Fpfmt.widenEntry_eq packed_binary64 negative bounded).symm
  have proper : binary64.reading code ≠ .nan := by
    intro nan
    rw [nan, signed_nan] at entry
    cases entry
  rcases Fpfmt.reading_cases proper with ⟨_, infinite⟩ | ⟨inside, value⟩
  · rw [infinite, signed_infinite] at entry
    cases entry
  · have exponent : code / 2 ^ 52 ≠ 2047 := inside
    rw [value, signed_finite] at entry
    exact ⟨negative, code, by omega, bits, (Reading.finite.inj entry).symm⟩

/-- The bits of the `float` that a `double` is cast to. -/
theorem toNat_doubleToFloat {d : UInt64} {negative : Bool} {code : ℕ}
    (number : code < 2047 * 2 ^ 52)
    (bits : d.toNat = negative.toNat * 2 ^ 63 + code) :
    (doubleToFloat d).toNat = negative.toNat * 2 ^ 31 + narrowCode code := by
  have bounded : code < 2 ^ binary64.signBit := number.trans (by decide)
  obtain ⟨_, exponent, mantissa⟩ := Fpfmt.fields_eq packed_binary64 negative bounded
  have exp : (negative.toNat * 2 ^ 63 + code) >>> 52 &&& 0x7FF = code / 2 ^ 52 := exponent
  have mant : (negative.toNat * 2 ^ 63 + code) &&& 0xFFFFFFFFFFFFF = code % 2 ^ 52 := mantissa
  have sign : (negative.toNat * 2 ^ 63 + code) >>> 63 = negative.toNat := by
    rw [Nat.shiftRight_eq_div_pow]
    exact exponent_eq bounded
  have fields : (code / 2 ^ 52) <<< 52 ||| code % 2 ^ 52 = code := by
    rw [shiftLeft_or_eq _ (Nat.mod_lt _ (Nat.two_pow_pos 52))]
    exact Nat.div_add_mod' code (2 ^ 52)
  have small := narrowCode_le code
  have one := Bool.toNat_le negative
  have within : narrowCode code < 2 ^ 31 := by omega
  simp only [doubleToFloat, bits, exp, mant, sign]
  rw [if_neg (by omega), fields, shiftLeft_or_eq _ within, UInt32.toNat_ofNat',
    Nat.mod_eq_of_lt (by omega)]

end HandsOn.Bfloat16
