import HandsOn.Minifloat.Narrow
import Mathlib.Tactic.NormNum

/-!
# Narrowing and widening together

The encoders of E4M3 and E5M2 and the tables of these formats agree on what the largest
exponent means. Those of E3M2 and E2M1 saturate to codes with all exponent bits set, which
the tables of these formats read as NaN.
-/

namespace HandsOn.Minifloat

/-- The formats for which `main` registers conversions. -/
inductive Format where
  | e4m3
  | e5m2
  | e3m2
  | e2m1
deriving DecidableEq

namespace Format

/-- The parameters that `main` gives to `build_widen_lut`. -/
def fpfmt : Format → Fpfmt
  | e4m3 => ⟨7, 3, 4, 7, 0, 3, 8, true⟩
  | e5m2 => ⟨7, 2, 5, 15, 0, 2, 8, false⟩
  | e3m2 => ⟨5, 2, 3, 3, 0, 2, 6, false⟩
  | e2m1 => ⟨3, 1, 2, 1, 0, 1, 4, false⟩

/-- The length of the format's table. -/
def nEntries : Format → ℕ
  | e4m3 => 256
  | e5m2 => 256
  | e3m2 => 64
  | e2m1 => 16

/-- The widening table. -/
def lut (format : Format) : List Reading := buildWidenLut format.nEntries format.fpfmt

/-- The constants of the narrowing function. -/
def narrowing : Format → Narrowing
  | e4m3 => f8e4m3
  | e5m2 => f8e5m2
  | e3m2 => f6e3m2
  | e2m1 => f4e2m1

/-- The narrowing function. -/
def narrow : Format → UInt32 → UInt8
  | e4m3 => f32ToF8e4m3
  | e5m2 => f32ToF8e5m2
  | e3m2 => f32ToF6e3m2
  | e2m1 => f32ToF4e2m1

/-- The table entry at the narrowed code; `none` is an index outside the table. -/
def lookup (format : Format) (u : UInt32) : Option Reading :=
  format.lut[(format.narrow u).toNat]?

/-- What the conversions of a format promise about two numbers in order. -/
def Agrees (format : Format) (u v : UInt32) : Prop :=
  ∃ low high, format.lookup u = some low ∧ format.lookup v = some high ∧
    low ≠ .nan ∧ high ≠ .nan ∧ low.le high ∧
    ∀ negative, low = .infinite negative ∨ high = .infinite negative → format = e5m2

/-- The numbers that the encoder does not saturate, where saturation gives a NaN. -/
def InRange : Format → ℚ → Prop
  | e4m3, _ => True
  | e5m2, _ => True
  | e3m2, value => |value| < 15
  | e2m1, value => |value| < 7 / 2

/-- How an encoder and a table belong together. -/
structure Paired (n : Narrowing) (f : Fpfmt) : Prop where
  packed : f.Packed
  fits : n.Fits f.esize
  msize : n.msize = f.msize
  saturated : n.expMax * 2 ^ n.msize ≤ n.saturated + 1

theorem paired (format : Format) : Paired format.narrowing format.fpfmt := by
  cases format <;> exact
    ⟨⟨rfl, rfl, rfl⟩, ⟨rfl, by decide, by decide, rfl, by decide, by decide, by decide⟩, rfl,
      by decide⟩

theorem narrow_eq_narrowing (format : Format) : format.narrow = format.narrowing.narrow := by
  cases format <;> rfl

/-- Encoder and table have the sign in the same place. -/
theorem signBit_eq (format : Format) : format.narrowing.signBit = format.fpfmt.signBit := by
  cases format <;> rfl

end Format

/-! ### Readings in order -/

theorem Reading.neg_neg (reading : Reading) : reading.neg.neg = reading := by
  cases reading with
  | nan => rfl
  | infinite negative => exact congrArg infinite (Bool.not_not negative)
  | finite value => exact congrArg finite (InvolutiveNeg.neg_neg value)

/-- A change of signs turns the order around. -/
theorem Reading.neg_le {low high : Reading} (le : low.le high) : high.neg.le low.neg := by
  cases low with
  | nan => exact le.elim
  | infinite negative =>
      cases high with
      | nan => cases negative <;> exact le.elim
      | infinite negative' =>
          cases negative <;> cases negative' <;> simp_all [Reading.le, Reading.neg]
      | finite value => cases negative <;> simp_all [Reading.le, Reading.neg]
  | finite value =>
      cases high with
      | nan => exact le.elim
      | infinite negative => cases negative <;> simp_all [Reading.le, Reading.neg]
      | finite value' => exact neg_le_neg le

namespace Fpfmt

variable {f : Fpfmt} {code code' : ℕ}

/-- A code that is no NaN is infinite or stands for its magnitude. -/
theorem reading_cases (number : f.reading code ≠ .nan) :
    (code / 2 ^ f.msize = 2 ^ f.esize - 1 ∧ f.reading code = .infinite false) ∨
      (code / 2 ^ f.msize ≠ 2 ^ f.esize - 1 ∧
        f.reading code = .finite (magnitude f.msize code * f.unit)) := by
  rw [reading] at number ⊢
  by_cases top : code / 2 ^ f.msize = 2 ^ f.esize - 1
  · rw [if_pos top] at number ⊢
    by_cases infinite : ¬ f.nanAllExpMax ∧ code % 2 ^ f.msize = 0
    · exact .inl ⟨top, if_pos infinite⟩
    · exact absurd (if_neg infinite) number
  · exact .inr ⟨top, if_neg top⟩

/-- An infinity is the code with all exponent bits and no mantissa bit set. -/
theorem of_reading_infinite {negative : Bool} (infinite : f.reading code = .infinite negative) :
    f.nanAllExpMax = false ∧ code / 2 ^ f.msize = 2 ^ f.esize - 1 ∧ code % 2 ^ f.msize = 0 := by
  rw [reading] at infinite
  split at infinite
  · rename_i top
    split at infinite
    · rename_i proper
      exact ⟨Bool.eq_false_iff.mpr proper.1, top, proper.2⟩
    · cases infinite
  · cases infinite

/-- Readings without a sign are ordered as their codes are. -/
theorem reading_le (le : code ≤ code') (bounded : code' / 2 ^ f.msize < 2 ^ f.esize)
    (number : f.reading code ≠ .nan) (number' : f.reading code' ≠ .nan) :
    (f.reading code).le (f.reading code') := by
  have fields : code / 2 ^ f.msize ≤ code' / 2 ^ f.msize := Nat.div_le_div_right le
  rcases reading_cases number with ⟨top, same⟩ | ⟨inside, same⟩ <;>
    rcases reading_cases number' with ⟨top', same'⟩ | ⟨inside', same'⟩ <;> rw [same, same']
  · exact .inr rfl
  · omega
  · exact trivial
  · have magnitudes := (magnitude_strictMono f.msize).monotone le
    exact mul_le_mul_of_nonneg_right (Nat.cast_le.mpr magnitudes) f.unit_pos.le

/-- A negative reading is below one without a sign. -/
theorem neg_reading_le (number : f.reading code ≠ .nan) (number' : f.reading code' ≠ .nan) :
    (f.reading code).neg.le (f.reading code') := by
  have positive := f.unit_pos
  rcases reading_cases number with ⟨_, same⟩ | ⟨_, same⟩ <;>
    rcases reading_cases number' with ⟨_, same'⟩ | ⟨_, same'⟩ <;> rw [same, same']
  · exact .inl rfl
  · exact trivial
  · exact trivial
  · exact (neg_nonpos.mpr (by positivity)).trans (by positivity)

end Fpfmt

/-! ### Numbers -/

/-- A reading with a sign. -/
def Reading.signed (negative : Bool) (reading : Reading) : Reading :=
  if negative then reading.neg else reading

/-- The fields of a `float` that is a number. -/
structure Number (u : UInt32) (value : ℚ) where
  negative : Bool
  exponent : ℕ
  mantissa : ℕ
  bounded : mantissa < 2 ^ 23
  number : exponent < 255
  bits : u.toNat = negative.toNat * 2 ^ 31 + (exponent * 2 ^ 23 + mantissa)
  value_eq : value =
    if negative then -(magnitude 23 (exponent * 2 ^ 23 + mantissa) * binary32.unit)
    else magnitude 23 (exponent * 2 ^ 23 + mantissa) * binary32.unit

/-- The `float` without its sign. -/
def Number.code {u : UInt32} {value : ℚ} (number : Number u value) : ℕ :=
  number.exponent * 2 ^ 23 + number.mantissa

theorem packed_binary32 : binary32.Packed := ⟨rfl, rfl, rfl⟩

theorem Number.size_nonneg {u : UInt32} {value : ℚ} (number : Number u value) :
    0 ≤ (magnitude 23 number.code : ℚ) * binary32.unit :=
  mul_nonneg (Nat.cast_nonneg _) binary32.unit_pos.le

/-- The size of a number is its magnitude. -/
theorem Number.abs_eq {u : UInt32} {value : ℚ} (number : Number u value) :
    |value| = magnitude 23 number.code * binary32.unit := by
  have nonneg := number.size_nonneg
  refine (congrArg abs number.value_eq).trans ?_
  split
  · rw [abs_neg]
    exact abs_of_nonneg nonneg
  · exact abs_of_nonneg nonneg

/-- Sizes are ordered as the codes without signs are. -/
theorem Number.size_le {u v : UInt32} {x y : ℚ} {low : Number u x} {high : Number v y} :
    (magnitude 23 low.code : ℚ) * binary32.unit ≤ magnitude 23 high.code * binary32.unit ↔
      low.code ≤ high.code := by
  rw [mul_le_mul_iff_left₀ binary32.unit_pos, Nat.cast_le, (magnitude_strictMono 23).le_iff_le]

/-- A word is a sign and the other bits. -/
theorem exists_sign (u : UInt32) :
    ∃ (negative : Bool) (code : ℕ), code < 2 ^ 31 ∧ u.toNat = negative.toNat * 2 ^ 31 + code := by
  have bounded := u.toNat_lt
  by_cases negative : 2 ^ 31 ≤ u.toNat
  · exact ⟨true, u.toNat - 2 ^ 31, by omega, by rw [Bool.toNat_true]; omega⟩
  · exact ⟨false, u.toNat, by omega, by rw [Bool.toNat_false]; omega⟩

theorem exists_number {u : UInt32} {value : ℚ} (finite : floatValue u = .finite value) :
    Nonempty (Number u value) := by
  obtain ⟨negative, code, within, bits⟩ := exists_sign u
  obtain ⟨exponent, mantissa, bounded, rfl⟩ := exists_fields 23 code
  have entry : Reading.finite value = Reading.signed negative
      (binary32.reading (exponent * 2 ^ 23 + mantissa)) := by
    rw [← finite, floatValue, bits]
    exact Fpfmt.widenEntry_eq packed_binary32 negative within
  have proper : binary32.reading (exponent * 2 ^ 23 + mantissa) ≠ .nan := by
    intro nan
    rw [nan] at entry
    cases negative <;> cases entry
  rcases Fpfmt.reading_cases proper with ⟨_, infinite⟩ | ⟨inside, same⟩
  · rw [infinite] at entry
    cases negative <;> cases entry
  · rw [same] at entry
    have field : exponent ≠ 255 := fun top => inside (by
      rw [show binary32.msize = 23 from rfl, exponent_eq bounded, top]
      rfl)
    refine ⟨⟨negative, exponent, mantissa, bounded, by omega, bits, ?_⟩⟩
    cases negative <;> exact Reading.finite.inj entry

namespace Format

variable {u v : UInt32} {x y : ℚ}

/-- The code of a number without its sign. -/
def code (format : Format) (number : Number u x) : ℕ := format.narrowing.narrowed number.code

theorem code_lt (format : Format) (number : Number u x) :
    format.code number < 2 ^ format.fpfmt.signBit := by
  rw [← signBit_eq]
  exact Narrowing.narrowed_lt format.paired.fits _

/-- The exponent field of a code. -/
theorem code_div_lt (format : Format) (number : Number u x) :
    format.code number / 2 ^ format.fpfmt.msize < 2 ^ format.fpfmt.esize := by
  apply Nat.div_lt_of_lt_mul
  rw [← Nat.pow_add, ← format.paired.packed.signBit]
  exact format.code_lt number

theorem toNat_narrow (format : Format) (number : Number u x) :
    (format.narrow u).toNat =
      number.negative.toNat * 2 ^ format.fpfmt.signBit + format.code number := by
  rw [narrow_eq_narrowing, ← signBit_eq]
  exact Narrowing.narrow_eq format.paired.fits _ number.bounded number.number number.bits

/-- The table has an entry for every code. -/
theorem toNat_narrow_lt (format : Format) (number : Number u x) :
    (format.narrow u).toNat < format.nEntries := by
  have bounded := format.code_lt number
  have sign := Bool.toNat_le number.negative
  have entries : format.nEntries = 2 * 2 ^ format.fpfmt.signBit := by cases format <;> rfl
  have high := Nat.mul_le_mul_right (2 ^ format.fpfmt.signBit) sign
  rw [toNat_narrow format number]
  omega

/-- What is found in the table for a number. -/
theorem lookup_eq (format : Format) (number : Number u x) :
    format.lookup u =
      some (Reading.signed number.negative (format.fpfmt.reading (format.code number))) := by
  rw [lookup, lut, buildWidenLut, List.getElem?_map,
    List.getElem?_range (format.toNat_narrow_lt number), Option.map_some,
    format.toNat_narrow number,
    Fpfmt.widenEntry_eq format.paired.packed _ (format.code_lt number), Reading.signed]

/-- Only the table of E5M2 gives infinities for numbers. -/
theorem eq_e5m2_of_infinite {format : Format} {number : Number u x} {negative : Bool}
    (infinite : format.fpfmt.reading (format.code number) = .infinite negative) :
    format = e5m2 := by
  obtain ⟨ieee, top, mantissa⟩ := Fpfmt.of_reading_infinite infinite
  cases format with
  | e4m3 => cases ieee
  | e5m2 => rfl
  | e3m2 =>
      change Narrowing.narrowed f6e3m2 number.code / 4 = 7 at top
      change Narrowing.narrowed f6e3m2 number.code % 4 = 0 at mantissa
      rw [Narrowing.narrowed] at top mantissa
      change (if 28 ≤ f6e3m2.rounded number.code then 30 else _) / 4 = 7 at top
      change (if 28 ≤ f6e3m2.rounded number.code then 30 else _) % 4 = 0 at mantissa
      split_ifs at top mantissa
      omega
  | e2m1 =>
      change Narrowing.narrowed f4e2m1 number.code / 2 = 3 at top
      change Narrowing.narrowed f4e2m1 number.code % 2 = 0 at mantissa
      rw [Narrowing.narrowed] at top mantissa
      change (if 6 ≤ f4e2m1.rounded number.code then 7 else _) / 2 = 3 at top
      change (if 6 ≤ f4e2m1.rounded number.code then 7 else _) % 2 = 0 at mantissa
      split_ifs at top mantissa
      omega

theorem signed_ne_nan {negative : Bool} {reading : Reading} :
    Reading.signed negative reading ≠ .nan ↔ reading ≠ .nan := by
  cases negative with
  | false => exact Iff.rfl
  | true => cases reading <;> simp [Reading.signed, Reading.neg]

theorem exists_infinite_of_signed {negative negative' : Bool} {reading : Reading}
    (infinite : Reading.signed negative reading = .infinite negative') :
    ∃ negative, reading = .infinite negative := by
  cases negative with
  | false => exact ⟨negative', infinite⟩
  | true => cases reading <;> simp_all [Reading.signed, Reading.neg]

/-- The code of a zero is read as zero. -/
theorem reading_zero (format : Format) {number : Number u x} (zero : number.code = 0) :
    format.fpfmt.reading (format.code number) = .finite 0 := by
  have fits := format.paired.fits
  have several := fits.several
  have narrowed : format.code number = 0 := by
    have rounded := Narrowing.rounded_zero fits (Nat.two_pow_pos 23) (.inl rfl)
    rw [Nat.zero_mul, Nat.add_zero] at rounded
    rw [code, zero, Narrowing.narrowed_of_low fits (by rw [Nat.zero_div]; exact Nat.zero_le _),
      rounded]
  have subnormal : 0 / 2 ^ format.fpfmt.msize ≠ 2 ^ format.fpfmt.esize - 1 := by
    rw [Nat.zero_div, ← fits.expMax]
    omega
  rw [narrowed, Fpfmt.reading, if_neg subnormal, magnitude_subnormal (Nat.two_pow_pos _),
    Nat.cast_zero, zero_mul]

/-- A number of no size is a zero. -/
theorem code_eq_zero {number : Number u x}
    (small : (magnitude 23 number.code : ℚ) * binary32.unit ≤ 0) : number.code = 0 := by
  have none : magnitude 23 number.code ≤ magnitude 23 0 := by
    have nonpos := nonpos_of_mul_nonpos_left small binary32.unit_pos
    rw [magnitude_subnormal (Nat.two_pow_pos 23)]
    exact_mod_cast nonpos
  exact Nat.le_zero.mp ((magnitude_strictMono 23).le_iff_le.mp none)

/-- The numbers' order is that of their codes, with the signs. -/
theorem signed_reading_le (format : Format) (low : Number u x) (high : Number v y)
    (ordered : x ≤ y) (number : format.fpfmt.reading (format.code low) ≠ .nan)
    (number' : format.fpfmt.reading (format.code high) ≠ .nan) :
    (Reading.signed low.negative (format.fpfmt.reading (format.code low))).le
      (Reading.signed high.negative (format.fpfmt.reading (format.code high))) := by
  have mono := Narrowing.narrowed_mono format.paired.fits format.paired.saturated
  have unit := binary32.unit_pos
  have sizes := low.value_eq.symm.trans_le (ordered.trans_eq high.value_eq)
  cases negative : low.negative <;> cases negative' : high.negative <;>
    rw [negative, negative'] at sizes
  · exact Fpfmt.reading_le (mono (Number.size_le.mp sizes)) (format.code_div_lt high) number number'
  · have sizeLow := low.size_nonneg
    have sizeHigh := high.size_nonneg
    change (magnitude 23 low.code : ℚ) * binary32.unit ≤
      -((magnitude 23 high.code : ℚ) * binary32.unit) at sizes
    have zeroLow := code_eq_zero (sizes.trans (neg_nonpos.mpr sizeHigh))
    have zeroHigh := code_eq_zero (le_neg.mp (sizeLow.trans sizes) |>.trans_eq neg_zero)
    rw [reading_zero format zeroLow, reading_zero format zeroHigh]
    exact neg_zero.ge
  · exact Fpfmt.neg_reading_le number number'
  · exact Reading.neg_le (Fpfmt.reading_le (mono (Number.size_le.mp (neg_le_neg_iff.mp sizes)))
      (format.code_div_lt low) number' number)

/-- A conversion keeps its promise for two numbers in order exactly if neither is read as a
NaN. -/
theorem agrees_iff_numbers (format : Format) (low : Number u x) (high : Number v y)
    (ordered : x ≤ y) :
    format.Agrees u v ↔ format.fpfmt.reading (format.code low) ≠ .nan ∧
      format.fpfmt.reading (format.code high) ≠ .nan := by
  constructor
  · rintro ⟨_, _, found, found', proper, proper', _⟩
    rw [lookup_eq format low, Option.some.injEq] at found
    rw [lookup_eq format high, Option.some.injEq] at found'
    subst found found'
    exact ⟨signed_ne_nan.mp proper, signed_ne_nan.mp proper'⟩
  · rintro ⟨proper, proper'⟩
    refine ⟨_, _, lookup_eq format low, lookup_eq format high, signed_ne_nan.mpr proper,
      signed_ne_nan.mpr proper', signed_reading_le format low high ordered proper proper',
      fun negative infinite => ?_⟩
    rcases infinite with infinite | infinite <;>
      obtain ⟨_, infinite⟩ := exists_infinite_of_signed infinite <;>
      exact eq_e5m2_of_infinite infinite

/-- The encoder overflows for a number. -/
def Overflows (format : Format) (number : Number u x) : Prop :=
  format.narrowing.expMax * 2 ^ format.narrowing.msize ≤ format.narrowing.rounded number.code

/-- A number is read as a NaN if it overflows and the code for that is read as one. -/
theorem reading_ne_nan_iff_overflows (format : Format) (number : Number u x) :
    format.fpfmt.reading (format.code number) ≠ .nan ↔
      (format.Overflows number → format.fpfmt.reading format.narrowing.saturated ≠ .nan) := by
  by_cases full : format.Overflows number
  · have saturated : format.code number = format.narrowing.saturated := if_pos full
    rw [saturated]
    exact ⟨fun proper _ => proper, fun proper => proper full⟩
  · have inside : format.code number / 2 ^ format.fpfmt.msize ≠ 2 ^ format.fpfmt.esize - 1 := by
      have within : format.code number < format.narrowing.expMax * 2 ^ format.narrowing.msize := by
        have rounded := Nat.lt_of_not_ge full
        rwa [code, Narrowing.narrowed, if_neg (Nat.not_le_of_lt rounded)]
      rw [← format.paired.fits.expMax, ← format.paired.msize]
      exact (Nat.div_lt_of_lt_mul (by rwa [Nat.mul_comm])).ne
    rw [Fpfmt.reading, if_neg inside]
    exact ⟨fun _ overflows => absurd overflows full, fun _ nan => by cases nan⟩

/-- A number overflows from a size on. -/
theorem overflows_iff (format : Format) (number : Number u x) (exponent mantissa : ℕ) {size : ℚ}
    (bounded : mantissa < 2 ^ 23)
    (first : (exponent + 1) * 2 ^ 23 + mantissa + 2 ^ (22 - format.narrowing.msize) =
      (format.narrowing.delta + format.narrowing.expMax) * 2 ^ 23)
    (value : ((2 ^ 23 + mantissa) * 2 ^ exponent : ℕ) * binary32.unit = size) :
    format.Overflows number ↔ size ≤ |x| := by
  rw [Overflows, Narrowing.overflow_iff_le format.paired.fits, ← first, Nat.add_le_add_iff_right,
    number.abs_eq, ← value, ← magnitude_normal bounded, mul_le_mul_iff_left₀ binary32.unit_pos,
    Nat.cast_le, (magnitude_strictMono 23).le_iff_le]

theorem e3m2_overflows_iff (number : Number u x) : e3m2.Overflows number ↔ 15 ≤ |x| := by
  apply e3m2.overflows_iff number 129 7340032 (by decide) (by decide)
  norm_num [Fpfmt.unit, binary32]

theorem e2m1_overflows_iff (number : Number u x) : e2m1.Overflows number ↔ 7 / 2 ≤ |x| := by
  apply e2m1.overflows_iff number 127 6291456 (by decide) (by decide)
  norm_num [Fpfmt.unit, binary32]

/-- Where the table reads saturated codes as NaN, it reads exactly these as NaN. -/
theorem reading_ne_nan_iff (format : Format) (number : Number u x) :
    format.fpfmt.reading (format.code number) ≠ .nan ↔ format.InRange x := by
  rw [reading_ne_nan_iff_overflows]
  cases format with
  | e4m3 => exact ⟨fun _ => trivial, fun _ _ nan => by cases nan⟩
  | e5m2 => exact ⟨fun _ => trivial, fun _ _ nan => by cases nan⟩
  | e3m2 =>
      rw [e3m2_overflows_iff, InRange, ← not_le]
      exact ⟨fun proper large => proper large rfl, fun small large => absurd large small⟩
  | e2m1 =>
      rw [e2m1_overflows_iff, InRange, ← not_le]
      exact ⟨fun proper large => proper large rfl, fun small large => absurd large small⟩

/-- A conversion keeps its promise exactly in the range that does not saturate to a NaN. -/
theorem agrees_iff (format : Format) (finite : floatValue u = .finite x)
    (finite' : floatValue v = .finite y) (ordered : x ≤ y) :
    format.Agrees u v ↔ format.InRange x ∧ format.InRange y := by
  obtain ⟨low⟩ := exists_number finite
  obtain ⟨high⟩ := exists_number finite'
  rw [agrees_iff_numbers format low high ordered, reading_ne_nan_iff, reading_ne_nan_iff]

end Format

/-- The `float` 15 has a code with all exponent bits set, which the table of E3M2 reads as NaN. -/
theorem fifteen_not_agrees :
    floatValue 0x41700000 = .finite 15 ∧ ¬ Format.e3m2.Agrees 0x41700000 0x41700000 := by
  refine ⟨by decide +kernel, ?_⟩
  rintro ⟨low, _, found, _, proper, _⟩
  have nan : Format.e3m2.lookup 0x41700000 = some .nan := by rfl
  rw [nan] at found
  exact proper (Option.some.inj found).symm

/-- The `float`s -2.5 and 1.5 are converted to E2M1 and back. -/
theorem agrees_across_zero : Format.e2m1.Agrees 0xC0200000 0x3FC00000 := by
  have low : floatValue 0xC0200000 = .finite (-(5 / 2)) := by decide +kernel
  have high : floatValue 0x3FC00000 = .finite (3 / 2) := by decide +kernel
  refine (Format.agrees_iff .e2m1 low high (by norm_num)).mpr ⟨?_, ?_⟩
  · rw [Format.InRange, abs_neg, abs_of_pos] <;> norm_num
  · rw [Format.InRange, abs_of_pos] <;> norm_num

end HandsOn.Minifloat
