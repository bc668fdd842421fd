import HandsOn.Minifloat.NearestCode

/-!
# Saturation of the FP6 and FP4 formats

E3M2 and E2M1 have no infinity and no NaN, so that every code stands for a number. Their
encoders treat the largest exponent as an overflow, as those of the FP8 formats do, and
round to the nearest value below it only.
-/

namespace HandsOn.Minifloat

open HandsOn.Numeric

namespace Format

/-- What a code stands for if every code is a number. -/
def decode (format : Format) (code : ℕ) : ℚ :=
  let size := magnitude format.fpfmt.msize (code % 2 ^ format.fpfmt.signBit) * format.fpfmt.unit
  if code >>> format.fpfmt.signBit = 1 then -size else size

/-- A number is rounded to within half the spacing of the format's values up to `maximum`, and
becomes `maximum` beyond, always with its own sign. -/
structure RoundsOrSaturates (format : Format) (maximum : ℚ) (u : UInt32) (x : ℚ) : Prop where
  width : (format.narrow u).toNat < 2 ^ format.fpfmt.prec
  sign : 0 < format.decode (format.narrow u).toNat * x
  nearest : |x| ≤ maximum → ∀ e : ℤ, 2 ^ e ≤ |x| → |x| < 2 ^ (e + 1) →
    |format.decode (format.narrow u).toNat - x| ≤ 2 ^ (e - format.fpfmt.msize) / 2
  largest : maximum < |x| → |format.decode (format.narrow u).toNat| = maximum

variable {u : UInt32} {x : ℚ}

theorem decode_narrow (format : Format) (number : Number u x) :
    format.decode (format.narrow u).toNat =
      let size := magnitude format.fpfmt.msize (format.code number) * format.fpfmt.unit
      if number.negative then -size else size := by
  have bounded := format.code_lt number
  rw [decode, format.toNat_narrow number, mantissa_eq bounded, Nat.shiftRight_eq_div_pow,
    Minifloat.exponent_eq bounded]
  cases number.negative <;> rfl

/-- A number and what it is narrowed to have the same sign. -/
theorem decode_narrow_cases (format : Format) (number : Number u x) :
    x = abs x ∧ format.decode (format.narrow u).toNat =
        magnitude format.fpfmt.msize (format.code number) * format.fpfmt.unit ∨
      x = -abs x ∧ format.decode (format.narrow u).toNat =
        -(magnitude format.fpfmt.msize (format.code number) * format.fpfmt.unit) := by
  have value := number.value_eq
  rw [← Number.code, ← number.abs_eq] at value
  rw [decode_narrow format number]
  cases negative : number.negative with
  | false =>
      rw [negative] at value
      exact .inl ⟨value, rfl⟩
  | true =>
      rw [negative] at value
      exact .inr ⟨value, rfl⟩

/-- Where signs agree, sizes differ as the numbers do. -/
theorem decode_sub (format : Format) (number : Number u x) :
    |format.decode (format.narrow u).toNat - x| =
      |magnitude format.fpfmt.msize (format.code number) * format.fpfmt.unit - abs x| := by
  have signs := format.decode_narrow_cases number
  generalize (magnitude format.fpfmt.msize (format.code number) : ℚ) * format.fpfmt.unit = y
    at signs ⊢
  rcases signs with ⟨value, decoded⟩ | ⟨value, decoded⟩
  · rw [decoded, ← value]
  · rw [decoded, abs_sub_comm, value, abs_neg, abs_abs, neg_sub_neg]

theorem abs_decode (format : Format) (number : Number u x) :
    |format.decode (format.narrow u).toNat| =
      magnitude format.fpfmt.msize (format.code number) * format.fpfmt.unit := by
  have nonneg : 0 ≤ (magnitude format.fpfmt.msize (format.code number) : ℚ) * format.fpfmt.unit :=
    mul_nonneg (Nat.cast_nonneg _) format.fpfmt.unit_pos.le
  rw [decode_narrow format number]
  simp only
  split
  · rw [abs_neg, abs_of_nonneg nonneg]
  · exact abs_of_nonneg nonneg

/-- The signs agree unless the result is a zero. -/
theorem decode_mul_pos (format : Format) (number : Number u x) :
    0 < format.decode (format.narrow u).toNat * x ↔
      0 < (magnitude format.fpfmt.msize (format.code number) : ℚ) * format.fpfmt.unit * abs x := by
  have signs := format.decode_narrow_cases number
  generalize (magnitude format.fpfmt.msize (format.code number) : ℚ) * format.fpfmt.unit = y
    at signs ⊢
  rcases signs with ⟨value, decoded⟩ | ⟨value, decoded⟩
  · rw [decoded, ← value]
  · rw [decoded, value, abs_neg, abs_abs, neg_mul_neg]

theorem width_narrow (format : Format) (u : UInt32) :
    (format.narrow u).toNat < 2 ^ format.fpfmt.prec := by
  have width : format.narrowing.signBit + 1 = format.fpfmt.prec := by cases format <;> rfl
  exact width ▸ (format.narrow_sign u).2

/-- Short of an overflow, a number is rounded to within half the spacing. -/
theorem sub_of_high (format : Format) (number : Number u x)
    (high : format.narrowing.delta < number.exponent) (within : ¬ format.Overflows number) {e : ℤ}
    (low : (2 : ℚ) ^ e ≤ |x|) (below : |x| < 2 ^ (e + 1)) :
    |magnitude format.fpfmt.msize (format.code number) * format.fpfmt.unit - abs x| ≤
      2 ^ (e - format.fpfmt.msize) / 2 := by
  have positive := format.spacing_pos number
  rw [format.magnitude_of_high number high within,
    format.spacing_eq number (Nat.zero_lt_of_lt high) low below, abs_sub_comm]
  calc
    _ = |abs x / format.spacing number - round (abs x / format.spacing number)| *
        format.spacing number := by
      rw [← abs_of_pos positive, ← abs_mul, abs_of_pos positive, sub_mul,
        div_mul_cancel₀ _ positive.ne']
    _ ≤ 1 / 2 * format.spacing number :=
      mul_le_mul_of_nonneg_right (abs_sub_round _) positive.le
    _ = _ := by ring

/-- Short of an overflow, the encoder rounds as it should. -/
theorem rounds_of_within {format : Format} {maximum : ℚ} (number : Number u x)
    (normal : (2 ^ format.fpfmt.msize : ℕ) * format.fpfmt.unit ≤ |x|)
    (within : ¬ format.Overflows number) (below : |x| ≤ maximum) :
    format.RoundsOrSaturates maximum u x where
  width := format.width_narrow u
  sign := by
    have high := format.high_of_normal number normal
    have field : number.code / 2 ^ 23 = number.exponent := Minifloat.exponent_eq number.bounded
    have least := Narrowing.le_rounded format.paired.fits (field.symm ▸ high)
    have some : 0 < format.code number := by
      rw [code, Narrowing.narrowed, if_neg (show ¬ _ ≤ _ from within)]
      refine lt_of_lt_of_le (Nat.mul_pos ?_ (Nat.two_pow_pos _)) least
      omega
    have positive : 0 < magnitude format.fpfmt.msize (format.code number) :=
      Nat.zero_lt_of_lt (magnitude_strictMono _ some)
    rw [decode_mul_pos format number]
    refine mul_pos (mul_pos (Nat.cast_pos.mpr positive) format.fpfmt.unit_pos) ?_
    exact (mul_pos (Nat.cast_pos.mpr (Nat.two_pow_pos _)) format.fpfmt.unit_pos).trans_le normal
  nearest _ e low high := by
    rw [decode_sub format number]
    exact format.sub_of_high number (format.high_of_normal number normal) within low high
  largest beyond := absurd beyond below.not_gt

/-- Where the encoder overflows, its code is that for an overflow. -/
theorem rounds_iff_of_overflows {format : Format} {maximum : ℚ} (saturated : ℚ)
    (number : Number u x) (overflows : format.Overflows number) (nonzero : 0 < |x|)
    (positive : 0 < saturated)
    (size : magnitude format.fpfmt.msize format.narrowing.saturated * format.fpfmt.unit =
      saturated) :
    format.RoundsOrSaturates maximum u x ↔
      (|x| ≤ maximum → ∀ e : ℤ, 2 ^ e ≤ |x| → |x| < 2 ^ (e + 1) →
        |saturated - abs x| ≤ 2 ^ (e - format.fpfmt.msize) / 2) ∧
      (maximum < |x| → saturated = maximum) := by
  have code : format.code number = format.narrowing.saturated := if_pos overflows
  constructor
  · intro rounds
    refine ⟨fun below e low high => ?_, fun beyond => ?_⟩
    · rw [← size, ← code, ← decode_sub format number]
      exact rounds.nearest below e low high
    · rw [← size, ← code, ← abs_decode format number]
      exact rounds.largest beyond
  · rintro ⟨nearest, largest⟩
    refine ⟨format.width_narrow u, ?_, fun below e low high => ?_, fun beyond => ?_⟩
    · rw [decode_mul_pos format number, code, size]
      exact mul_pos positive nonzero
    · rw [decode_sub format number, code, size]
      exact nearest below e low high
    · rw [abs_decode format number, code, size]
      exact largest beyond

end Format

/-- A number has one binary exponent. -/
theorem forall_exponent_iff {P : ℤ → Prop} {t : ℚ} {e : ℤ} (low : (2 : ℚ) ^ e ≤ t)
    (high : t < 2 ^ (e + 1)) : (∀ e' : ℤ, 2 ^ e' ≤ t → t < 2 ^ (e' + 1) → P e') ↔ P e := by
  constructor
  · exact fun all => all e low high
  · intro here e' low' high'
    rwa [exponent_unique low' high' low high]

/-- The code of E3M2 for an overflow is 24. -/
theorem e3m2_saturated_iff {t : ℚ} (large : 15 ≤ t) :
    (t ≤ 28 → ∀ e : ℤ, 2 ^ e ≤ t → t < 2 ^ (e + 1) → |24 - t| ≤ 2 ^ (e - 2) / 2) ∧
      (28 < t → (24 : ℚ) = 28) ↔ 22 ≤ t ∧ t ≤ 26 := by
  rcases lt_or_ge 28 t with beyond | inside
  · refine iff_of_false (fun both => absurd (both.2 beyond) (by norm_num)) ?_
    rintro ⟨_, last⟩
    linarith
  · simp only [inside, inside.not_gt, forall_true_left, false_implies, and_true]
    rcases lt_or_ge t 16 with below | above
    · rw [forall_exponent_iff (e := 3) (by norm_num; linarith) (by norm_num; linarith), abs_le]
      norm_num
      constructor <;> intro <;> constructor <;> linarith
    · rw [forall_exponent_iff (e := 4) (by norm_num; linarith) (by norm_num; linarith), abs_le]
      norm_num
      constructor <;> rintro ⟨first, last⟩ <;> constructor <;> linarith

/-- The code of E2M1 for an overflow is 6. -/
theorem e2m1_saturated_iff {t : ℚ} (large : 7 / 2 ≤ t) :
    (t ≤ 6 → ∀ e : ℤ, 2 ^ e ≤ t → t < 2 ^ (e + 1) → |6 - t| ≤ 2 ^ (e - 1) / 2) ∧
      (6 < t → (6 : ℚ) = 6) ↔ 5 ≤ t := by
  rcases lt_or_ge 6 t with beyond | inside
  · refine iff_of_true ⟨fun inside => absurd inside beyond.not_ge, fun _ => rfl⟩ ?_
    linarith
  · simp only [inside, inside.not_gt, forall_true_left, false_implies, and_true]
    rcases lt_or_ge t 4 with below | above
    · rw [forall_exponent_iff (e := 1) (by norm_num; linarith) (by norm_num; linarith), abs_le]
      norm_num
      exact ⟨fun both => by linarith, fun atLeast => by linarith⟩
    · rw [forall_exponent_iff (e := 2) (by norm_num; linarith) (by norm_num; linarith), abs_le]
      norm_num
      exact ⟨fun both => by linarith, fun atLeast => ⟨by linarith, by linarith⟩⟩

/-- The encoder of E3M2 rounds numbers to within half the spacing up to 28 and saturates to 28
beyond, if and only if they are below 15 or between 22 and 26; that of E2M1, up to 6, if and
only if they are below 3.5 or from 5 on. -/
theorem roundsOrSaturates_iff {u : UInt32} {x : ℚ} (finite : floatValue u = .finite x) :
    (1 / 4 ≤ |x| →
      (Format.e3m2.RoundsOrSaturates 28 u x ↔ |x| < 15 ∨ 22 ≤ |x| ∧ |x| ≤ 26)) ∧
    (1 ≤ |x| → (Format.e2m1.RoundsOrSaturates 6 u x ↔ |x| < 7 / 2 ∨ 5 ≤ |x|)) := by
  obtain ⟨number⟩ := exists_number finite
  refine ⟨fun normal => ?_, fun normal => ?_⟩
  · have least : (2 ^ Format.e3m2.fpfmt.msize : ℕ) * Format.e3m2.fpfmt.unit ≤ |x| := by
      norm_num [Format.fpfmt, Fpfmt.unit]
      linarith
    by_cases overflows : Format.e3m2.Overflows number
    · have large := (Format.e3m2_overflows_iff number).mp overflows
      rw [Format.rounds_iff_of_overflows 24 number overflows (by linarith)
        (by norm_num) (by norm_num [Format.fpfmt, Format.narrowing, f6e3m2, magnitude, Fpfmt.unit])]
      exact (e3m2_saturated_iff large).trans (or_iff_right large.not_gt).symm
    · have small := lt_of_not_ge (mt (Format.e3m2_overflows_iff number).mpr overflows)
      exact iff_of_true (Format.rounds_of_within number least overflows (by linarith)) (.inl small)
  · have least : (2 ^ Format.e2m1.fpfmt.msize : ℕ) * Format.e2m1.fpfmt.unit ≤ |x| := by
      norm_num [Format.fpfmt, Fpfmt.unit]
      linarith
    by_cases overflows : Format.e2m1.Overflows number
    · have large := (Format.e2m1_overflows_iff number).mp overflows
      rw [Format.rounds_iff_of_overflows 6 number overflows (by linarith)
        (by norm_num) (by norm_num [Format.fpfmt, Format.narrowing, f4e2m1, magnitude, Fpfmt.unit])]
      exact (e2m1_saturated_iff large).trans (or_iff_right large.not_gt).symm
    · have small := lt_of_not_ge (mt (Format.e2m1_overflows_iff number).mpr overflows)
      exact iff_of_true (Format.rounds_of_within number least overflows (by linarith)) (.inl small)

/-- 15 becomes 24 in E3M2, where 14 and 16 are values, and 4 becomes 6 in E2M1. -/
theorem not_roundsOrSaturates_fifteen :
    (floatValue 0x41700000 = .finite 15 ∧ ¬ Format.e3m2.RoundsOrSaturates 28 0x41700000 15) ∧
      floatValue 0x40800000 = .finite 4 ∧ ¬ Format.e2m1.RoundsOrSaturates 6 0x40800000 4 := by
  refine ⟨⟨by decide +kernel, fun rounds => ?_⟩, by decide +kernel, fun rounds => ?_⟩
  · have decoded : Format.e3m2.decode (Format.e3m2.narrow 0x41700000).toNat = 24 := by
      decide +kernel
    have far := rounds.nearest (by norm_num) 3 (by norm_num) (by norm_num)
    rw [decoded] at far
    norm_num [Format.fpfmt] at far
  · have decoded : Format.e2m1.decode (Format.e2m1.narrow 0x40800000).toNat = 6 := by
      decide +kernel
    have far := rounds.nearest (by norm_num) 2 (by norm_num) (by norm_num)
    rw [decoded] at far
    norm_num [Format.fpfmt] at far

/-- 1 is a value of both formats. -/
theorem roundsOrSaturates_one :
    Format.e3m2.RoundsOrSaturates 28 0x3F800000 1 ∧
      Format.e2m1.RoundsOrSaturates 6 0x3F800000 1 := by
  have value : floatValue 0x3F800000 = .finite 1 := by decide +kernel
  obtain ⟨e3m2, e2m1⟩ := roundsOrSaturates_iff value
  exact ⟨(e3m2 (by norm_num)).mpr (.inl (by norm_num)),
    (e2m1 (by norm_num)).mpr (.inl (by norm_num))⟩

end HandsOn.Minifloat
