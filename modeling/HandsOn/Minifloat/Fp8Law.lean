import HandsOn.Minifloat.NearestCode

/-!
# The error law of the FP8 formats

Every `float` is narrowed to a code of its own sign. Numbers below the first normal one of
the format are truncated, those from there on are rounded to the nearest value with ties
away from zero, and those from a threshold on become the largest number or an infinity.
-/

namespace HandsOn.Minifloat

open HandsOn.Numeric

/-- The law of a narrowing function, by its table: truncation to multiples of `1 / 2 ^ bits`
below `2 ^ least`, rounding to `digits` digits after the leading one below `threshold`. -/
structure Fp8Law (format : Format) (least : ℤ) (bits digits : ℕ) (threshold : ℚ)
    (overflow infinity : Reading) : Prop where
  sign : ∀ u, (format.narrow u).toNat >>> 7 = u.toNat >>> 31
  small : ∀ u x, floatValue u = .finite x → |x| < 2 ^ least →
    format.lookup u =
      some (.signed (isNegative u) (.finite (⌊|x| * 2 ^ bits⌋ / 2 ^ bits)))
  nearest : ∀ u x, floatValue u = .finite x → 2 ^ least ≤ |x| → |x| < threshold →
    ∀ e : ℤ, 2 ^ e ≤ |x| → |x| < 2 ^ (e + 1) →
      ∃ y, format.lookup u = some (.signed (isNegative u) (.finite y)) ∧
        IsNearestAway (multiples (2 ^ (e - digits))) |x| y
  large : ∀ u x, floatValue u = .finite x → threshold ≤ |x| →
    format.lookup u = some (.signed (isNegative u) overflow)
  zero : ∀ u, (u.toNat >>> 23) &&& 0xFF = 0 →
    (format.narrow u).toNat = (u.toNat >>> 31) <<< 7 ∧ format.lookup u = some (.finite 0)
  infinite : ∀ u negative, floatValue u = .infinite negative →
    format.lookup u = some (.signed negative infinity)
  nan : ∀ u, floatValue u = .nan → format.lookup u = some .nan

namespace Format

variable {u : UInt32} {x : ℚ}

/-- What the table gives for a `float` that is no number. -/
theorem lookup_special (format : Format) (special : Special u) :
    format.lookup u = some (.signed special.negative
      (format.fpfmt.reading (format.narrowing.special special.mantissa))) := by
  have bounded := format.special_lt special.mantissa
  rw [signBit_eq] at bounded
  have code := special.toNat_narrow format (format.special_lt _)
  have entries : format.nEntries = 2 * 2 ^ format.fpfmt.signBit := by cases format <;> rfl
  have one := Nat.mul_le_mul_right (2 ^ format.fpfmt.signBit) (Bool.toNat_le special.negative)
  rw [signBit_eq] at code
  rw [lookup, lut, buildWidenLut, List.getElem?_map, code, List.getElem?_range (by omega),
    Option.map_some, Fpfmt.widenEntry_eq format.paired.packed _ bounded, Reading.signed]

/-- A code short of an overflow stands for its magnitude. -/
theorem reading_of_within (format : Format) (number : Number u x)
    (within : ¬ format.Overflows number) :
    format.fpfmt.reading (format.code number) =
      .finite (magnitude format.fpfmt.msize (format.code number) * format.fpfmt.unit) := by
  have fits := format.paired.fits
  have below : format.code number < format.narrowing.expMax * 2 ^ format.narrowing.msize := by
    rw [code, Narrowing.narrowed, if_neg (show ¬ _ ≤ _ from within)]
    exact Nat.lt_of_not_ge within
  rw [Fpfmt.reading, if_neg]
  rw [← fits.expMax, ← format.paired.msize]
  exact (Nat.div_lt_of_lt_mul (by rwa [Nat.mul_comm])).ne

/-- A `float` without exponent becomes a zero of its sign. -/
theorem narrow_zero (format : Format) (none : (u.toNat >>> 23) &&& 0xFF = 0) :
    (format.narrow u).toNat = (u.toNat >>> 31) <<< format.narrowing.signBit ∧
      format.lookup u = some (.finite 0) := by
  obtain ⟨x, _, ⟨number⟩⟩ : ∃ x, floatValue u = .finite x ∧ Nonempty (Number u x) := by
    refine (number_or_special u).resolve_right fun ⟨special⟩ => ?_
    rw [special.fields.2.1] at none
    cases none
  have exponent : number.exponent = 0 := number.exponent_eq.symm.trans none
  have fits := format.paired.fits
  have small : number.code / 2 ^ 23 ≤ format.narrowing.delta := by
    rw [Number.code, Minifloat.exponent_eq number.bounded, exponent]
    exact Nat.zero_le _
  have zero : format.code number = 0 := by
    rw [code, Narrowing.narrowed_of_low fits small, Number.code]
    exact Narrowing.rounded_zero fits number.bounded (.inl exponent)
  have reading : format.fpfmt.reading 0 = .finite 0 := by
    have several := fits.several
    have subnormal : 0 / 2 ^ format.fpfmt.msize ≠ 2 ^ format.fpfmt.esize - 1 := by
      rw [Nat.zero_div, ← fits.expMax]
      omega
    rw [Fpfmt.reading, if_neg subnormal, magnitude_subnormal (Nat.two_pow_pos _), Nat.cast_zero,
      zero_mul]
  constructor
  · rw [format.toNat_narrow number, number.sign_eq, zero, Nat.add_zero, signBit_eq,
      Nat.shiftLeft_eq]
  · rw [format.lookup_eq number, zero, reading]
    cases number.negative with
    | false => rfl
    | true => exact congrArg (fun value => some (Reading.finite value)) neg_zero

end Format

/-- What the law needs beyond what the narrowing functions have in common. -/
theorem fp8Law_of {format : Format} {least : ℤ} {bits digits : ℕ} {threshold : ℚ}
    {overflow infinity : Reading} (signBit : format.narrowing.signBit = 7)
    (leastNormal : (2 : ℚ) ^ least = (2 ^ format.fpfmt.msize : ℕ) * format.fpfmt.unit)
    (unit : format.fpfmt.unit = 1 / 2 ^ bits) (msize : format.fpfmt.msize = digits)
    (within : ∀ {u x} (number : Number u x), |x| < threshold → ¬ format.Overflows number)
    (large : ∀ {u x} (number : Number u x), threshold ≤ |x| →
      format.fpfmt.reading (format.code number) = overflow)
    (infinite : format.fpfmt.reading (format.narrowing.special 0) = infinity)
    (nan : ∀ mantissa, mantissa ≠ 0 →
      format.fpfmt.reading (format.narrowing.special mantissa) = .nan) :
    Fp8Law format least bits digits threshold overflow infinity where
  sign u := signBit ▸ (format.narrow_sign u).1
  small u x finite small := by
    obtain ⟨number⟩ := exists_number finite
    rw [leastNormal, ← format.low_iff number] at small
    rw [format.lookup_eq number, number.isNegative_eq, format.reading_of_low number small, unit]
    simp only [div_div_eq_mul_div, div_one, mul_one_div]
  nearest u x finite normal below e low high := by
    obtain ⟨number⟩ := exists_number finite
    have above := format.high_of_normal number (leastNormal ▸ normal)
    have notOverflows := within number below
    refine ⟨round (|x| / format.spacing number) * format.spacing number, ?_, ?_⟩
    · rw [format.lookup_eq number, number.isNegative_eq,
        format.reading_of_within number notOverflows,
        format.magnitude_of_high number above notOverflows]
    · rw [← msize, format.spacing_eq number (Nat.zero_lt_of_lt above) low high]
      exact isNearestAway_round (abs_nonneg x) (format.spacing_pos number)
  large u x finite atLeast := by
    obtain ⟨number⟩ := exists_number finite
    rw [format.lookup_eq number, number.isNegative_eq, large number atLeast]
  zero u none := signBit ▸ format.narrow_zero none
  infinite u negative value := by
    obtain ⟨special, none, rfl⟩ := exists_special_infinite value
    rw [format.lookup_special special, none, infinite]
  nan u value := by
    obtain ⟨special, some⟩ := exists_special_nan value
    rw [format.lookup_special special, nan _ some]
    cases special.negative <;> rfl

theorem e4m3_overflows_iff {u : UInt32} {x : ℚ} (number : Number u x) :
    Format.e4m3.Overflows number ↔ 248 ≤ |x| := by
  apply Format.e4m3.overflows_iff number 133 7864320 (by decide) (by decide)
  norm_num [Fpfmt.unit, binary32]

theorem e5m2_overflows_iff {u : UInt32} {x : ℚ} (number : Number u x) :
    Format.e5m2.Overflows number ↔ 61440 ≤ |x| := by
  apply Format.e5m2.overflows_iff number 141 7340032 (by decide) (by decide)
  norm_num [Fpfmt.unit, binary32]

/-- From 232 on, E4M3 is saturated, by rounding below 248 and by a clamp from there on. -/
theorem e4m3_saturates {u : UInt32} {x : ℚ} (number : Number u x) (large : 232 ≤ |x|) :
    Format.e4m3.fpfmt.reading (Format.e4m3.code number) = .finite 240 := by
  by_cases overflows : Format.e4m3.Overflows number
  · rw [Format.code, Narrowing.narrowed, if_pos (show _ ≤ _ from overflows)]
    norm_num [Fpfmt.reading, Format.fpfmt, Format.narrowing, f8e4m3, magnitude, Fpfmt.unit]
  · have below := lt_of_not_ge (mt (e4m3_overflows_iff number).mpr overflows)
    have above : Format.e4m3.narrowing.delta < number.exponent := by
      apply Format.e4m3.high_of_normal number
      norm_num [Format.fpfmt, Fpfmt.unit]
      linarith
    have spacing := Format.e4m3.spacing_eq number (Nat.zero_lt_of_lt above) (e := 7)
      (by norm_num; linarith) (by norm_num; linarith)
    have nearest : round (|x| / 16) = 15 := by
      rw [round_eq_iff]
      constructor <;> norm_num <;> linarith
    rw [Format.e4m3.reading_of_within number overflows,
      Format.e4m3.magnitude_of_high number above overflows,
      ← spacing]
    norm_num [Format.fpfmt, nearest]

/-- The error law of `f32_to_f8e4m3` and `f32_to_f8e5m2`. -/
theorem fp8_law :
    Fp8Law .e4m3 (-6) 9 3 232 (.finite 240) .nan ∧
      Fp8Law .e5m2 (-14) 16 2 61440 (.infinite false) (.infinite false) := by
  constructor
  · refine fp8Law_of rfl ?_ ?_ rfl ?_ e4m3_saturates rfl fun _ _ => ?_
    · norm_num [Format.fpfmt, Fpfmt.unit]
    · norm_num [Format.fpfmt, Fpfmt.unit]
    · intro u x number below overflows
      linarith [(e4m3_overflows_iff number).mp overflows]
    · exact (rfl : Format.e4m3.fpfmt.reading 0x7F = .nan)
  · refine fp8Law_of rfl ?_ ?_ rfl ?_ ?_ rfl ?_
    · norm_num [Format.fpfmt, Fpfmt.unit]
    · norm_num [Format.fpfmt, Fpfmt.unit]
    · intro u x number below overflows
      linarith [(e5m2_overflows_iff number).mp overflows]
    · intro u x number large
      have overflows := (e5m2_overflows_iff number).mpr large
      rw [Format.code, Narrowing.narrowed, if_pos (show _ ≤ _ from overflows)]
      rfl
    · intro mantissa some
      rw [show Format.e5m2.narrowing.special mantissa = 0x7F from if_pos some]
      rfl

end HandsOn.Minifloat
