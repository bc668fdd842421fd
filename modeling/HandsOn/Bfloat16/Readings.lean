import HandsOn.Bfloat16.Bits
import HandsOn.Minifloat.Fields

/-!
# The values of `bfloat16`

The codes that are multiples of `2 ^ 16` are those of the `bfloat16` values, and the codes
between two of them are evenly spaced. Numbers and infinities are ordered as their codes are,
with the signs.
-/

namespace HandsOn.Bfloat16

open HandsOn.Minifloat

/-- The value of a `bfloat16` code without sign. -/
def size (k : ℕ) : ℚ := magnitude 23 (k * 2 ^ 16) * binary32.unit

/-- The finite values of `bfloat16`. -/
def bfloat16Values : Set ℚ := {z | ∃ src, floatValue (bf16ToF32 src) = .finite z}

/-- Between two multiples of `2 ^ 16` the codes are evenly spaced. -/
theorem exists_gap (k : ℕ) : ∃ gap, ∀ r ≤ 2 ^ 16,
    magnitude 23 (k * 2 ^ 16 + r) = magnitude 23 (k * 2 ^ 16) + r * gap := by
  obtain ⟨exponent, high, bounded, rfl⟩ := exists_fields 7 k
  obtain ⟨base, spacing, evenly⟩ := exists_spacing 23 exponent
  refine ⟨spacing, fun r within => ?_⟩
  have code : ∀ r, (exponent * 2 ^ 7 + high) * 2 ^ 16 + r =
      exponent * 2 ^ 23 + (high * 2 ^ 16 + r) := fun r => by ring
  have first := evenly (high * 2 ^ 16 + 0) (by omega)
  rw [← code, Nat.add_zero, Nat.add_zero] at first
  rw [code, evenly _ (by omega), first]
  ring

theorem size_strictMono : StrictMono size := by
  intro k k' less
  refine mul_lt_mul_of_pos_right (Nat.cast_lt.mpr (magnitude_strictMono 23 ?_)) binary32.unit_pos
  exact Nat.mul_lt_mul_of_pos_right less (Nat.two_pow_pos 16)

theorem size_zero : size 0 = 0 := by
  rw [size, Nat.zero_mul, magnitude_subnormal (Nat.two_pow_pos 23), Nat.cast_zero, zero_mul]

theorem size_nonneg (k : ℕ) : 0 ≤ size k := mul_nonneg (Nat.cast_nonneg _) binary32.unit_pos.le

/-- A word is a sign and the other bits. -/
theorem exists_sign16 (src : UInt16) :
    ∃ (negative : Bool) (k : ℕ), k < 2 ^ 15 ∧ src.toNat = negative.toNat * 2 ^ 15 + k := by
  have bounded := src.toNat_lt
  by_cases negative : 2 ^ 15 ≤ src.toNat
  · exact ⟨true, src.toNat - 2 ^ 15, by omega, by rw [Bool.toNat_true]; omega⟩
  · exact ⟨false, src.toNat, by omega, by rw [Bool.toNat_false]; omega⟩

section Code

variable {src : UInt16} {negative : Bool} {k : ℕ} (bounded : k < 2 ^ 15)
  (bits : src.toNat = negative.toNat * 2 ^ 15 + k)
include bounded bits

/-- A widened code is followed by zeros. -/
theorem bits_bf16ToF32 : k * 2 ^ 16 < 2 ^ 31 ∧
    (bf16ToF32 src).toNat = negative.toNat * 2 ^ 31 + k * 2 ^ 16 := by
  refine ⟨by omega, ?_⟩
  rw [toNat_bf16ToF32, bits]
  ring

theorem floatValue_bf16ToF32 :
    floatValue (bf16ToF32 src) = .signed negative (binary32.reading (k * 2 ^ 16)) :=
  floatValue_eq (bits_bf16ToF32 bounded bits).1 (bits_bf16ToF32 bounded bits).2

end Code

/-! ### Readings -/

theorem reading_number {code : ℕ} (number : code < 255 * 2 ^ 23) :
    binary32.reading code = .finite (magnitude 23 code * binary32.unit) := by
  have inside : code / 2 ^ binary32.msize ≠ 2 ^ binary32.esize - 1 := by
    change code / 2 ^ 23 ≠ 255
    omega
  exact if_neg inside

theorem reading_infinite : binary32.reading (255 * 2 ^ 23) = .infinite false := rfl

theorem reading_nan {code : ℕ} (nan : 255 * 2 ^ 23 < code) (bounded : code < 2 ^ 31) :
    binary32.reading code = .nan := by
  have top : code / 2 ^ binary32.msize = 2 ^ binary32.esize - 1 := by
    change code / 2 ^ 23 = 255
    omega
  have mantissa : ¬ (¬ binary32.nanAllExpMax ∧ code % 2 ^ binary32.msize = 0) := by
    change ¬ (_ ∧ code % 2 ^ 23 = 0)
    omega
  rw [Fpfmt.reading, if_pos top, if_neg mantissa]

/-- The value of a size with a sign. -/
def withSign (negative : Bool) (value : ℚ) : ℚ := if negative then -value else value

theorem signed_finite (negative : Bool) (value : ℚ) :
    Reading.signed negative (.finite value) = .finite (withSign negative value) := by
  cases negative <;> rfl

theorem signed_infinite (negative : Bool) :
    Reading.signed negative (.infinite false) = .infinite negative := by
  cases negative <;> rfl

theorem signed_nan (negative : Bool) : Reading.signed negative .nan = .nan := by
  cases negative <;> rfl

theorem abs_withSign (negative : Bool) {value : ℚ} (nonneg : 0 ≤ value) :
    |withSign negative value| = value := by
  cases negative with
  | false => exact abs_of_nonneg nonneg
  | true => exact (abs_neg value).trans (abs_of_nonneg nonneg)

section Code

variable {src : UInt16} {negative : Bool} {k : ℕ} (bits : src.toNat = negative.toNat * 2 ^ 15 + k)
include bits

/-- The readings of `bfloat16`. -/
theorem floatValue_bf16ToF32_number (number : k < 0x7F80) :
    floatValue (bf16ToF32 src) = .finite (withSign negative (size k)) := by
  rw [floatValue_bf16ToF32 (by omega) bits, reading_number (by omega), signed_finite, size]

theorem floatValue_bf16ToF32_infinite (infinite : k = 0x7F80) :
    floatValue (bf16ToF32 src) = .infinite negative := by
  rw [floatValue_bf16ToF32 (by omega) bits, infinite]
  exact signed_infinite negative

theorem floatValue_bf16ToF32_nan (nan : 0x7F80 < k) (bounded : k < 2 ^ 15) :
    floatValue (bf16ToF32 src) = .nan := by
  rw [floatValue_bf16ToF32 bounded bits, reading_nan (by omega) (by omega), signed_nan]

end Code

theorem mem_bfloat16Values {z : ℚ} : z ∈ bfloat16Values ↔ ∃ k < 0x7F80, |z| = size k := by
  constructor
  · rintro ⟨src, value⟩
    obtain ⟨number⟩ := exists_number value
    have bits := number.bits
    have exponent := number.number
    have mantissa := number.bounded
    have fields : number.code = number.exponent * 2 ^ 23 + number.mantissa := rfl
    rw [toNat_bf16ToF32] at bits
    have multiple : 2 ^ 16 ∣ number.code := by omega
    refine ⟨number.code / 2 ^ 16, by omega, ?_⟩
    rw [number.abs_eq, size, Nat.div_mul_cancel multiple]
  · rintro ⟨k, number, absolute⟩
    have sign := Bool.toNat_le (decide (z < 0))
    have bits : (UInt16.ofNat ((decide (z < 0)).toNat * 2 ^ 15 + k)).toNat =
        (decide (z < 0)).toNat * 2 ^ 15 + k := by
      rw [UInt16.toNat_ofNat', Nat.mod_eq_of_lt (by omega)]
    refine ⟨_, (floatValue_bf16ToF32_number bits number).trans (congrArg Reading.finite ?_)⟩
    rw [← absolute, withSign]
    by_cases negative : z < 0
    · rw [decide_eq_true negative, if_pos rfl, abs_of_neg negative, neg_neg]
    · rw [decide_eq_false negative, if_neg Bool.false_ne_true, abs_of_nonneg (not_lt.mp negative)]

/-! ### Order -/

/-- Numbers and infinities in order, by their signs and codes. -/
def CodeLe : Bool → ℕ → Bool → ℕ → Prop
  | false, code, false, code' => code ≤ code'
  | true, code, true, code' => code' ≤ code
  | true, _, false, _ => True
  | false, code, true, code' => code = 0 ∧ code' = 0

/-- A NaN is in no order. -/
theorem ne_nan_of_le {low high : Reading} (ordered : low.le high) : low ≠ .nan ∧ high ≠ .nan := by
  constructor
  · rintro rfl
    exact ordered
  · rintro rfl
    cases low with
    | nan => exact ordered
    | infinite negative => cases negative <;> exact ordered
    | finite value => exact ordered

section Order

variable {code code' : ℕ} (proper : code ≤ 255 * 2 ^ 23) (proper' : code' ≤ 255 * 2 ^ 23)

theorem reading_ne_nan {code : ℕ} (proper : code ≤ 255 * 2 ^ 23) :
    binary32.reading code ≠ .nan := by
  rcases Nat.lt_or_eq_of_le proper with number | rfl
  · rw [reading_number number]
    exact Reading.noConfusion
  · exact Reading.noConfusion

include proper proper'

/-- Readings without a sign are in order exactly if their codes are. -/
theorem reading_le_iff :
    (binary32.reading code).le (binary32.reading code') ↔ code ≤ code' := by
  constructor
  · intro ordered
    rcases Nat.lt_or_eq_of_le proper' with number' | rfl
    · rcases Nat.lt_or_eq_of_le proper with number | rfl
      · rw [reading_number number, reading_number number'] at ordered
        have sizes := le_of_mul_le_mul_right ordered binary32.unit_pos
        exact (magnitude_strictMono 23).le_iff_le.mp (Nat.cast_le.mp sizes)
      · rw [reading_infinite, reading_number number'] at ordered
        exact ordered.elim
    · exact proper
  · intro le
    refine Fpfmt.reading_le le ?_ (reading_ne_nan proper) (reading_ne_nan proper')
    change code' / 2 ^ 23 < 256
    omega

/-- Only zeros without a sign are not above the readings with one. -/
theorem reading_le_neg_iff :
    (binary32.reading code).le (binary32.reading code').neg ↔ code = 0 ∧ code' = 0 := by
  constructor
  · intro ordered
    rcases Nat.lt_or_eq_of_le proper with number | rfl
    · rcases Nat.lt_or_eq_of_le proper' with number' | rfl
      · rw [reading_number number, reading_number number'] at ordered
        have unit := binary32.unit_pos
        have sum := le_neg_iff_add_nonpos_right.mp ordered
        rw [← add_mul, ← Nat.cast_add] at sum
        have none : magnitude 23 code + magnitude 23 code' = 0 := by
          exact_mod_cast (nonpos_of_mul_nonpos_left sum unit).antisymm (Nat.cast_nonneg _)
        have first := magnitude_subnormal (Nat.two_pow_pos 23)
        constructor
        · exact (magnitude_strictMono 23).injective (by omega)
        · exact (magnitude_strictMono 23).injective (by omega)
      · rw [reading_infinite, reading_number number] at ordered
        exact ordered.elim
    · rcases Nat.lt_or_eq_of_le proper' with number' | rfl
      · rw [reading_infinite, reading_number number'] at ordered
        exact ordered.elim
      · rw [reading_infinite] at ordered
        rcases ordered with h | h <;> cases h
  · rintro ⟨rfl, rfl⟩
    have zero : binary32.reading 0 = .finite 0 := by decide +kernel
    rw [zero]
    exact neg_zero.ge

/-- The order of the numbers and infinities. -/
theorem signed_le_iff (negative negative' : Bool) :
    (Reading.signed negative (binary32.reading code)).le
      (Reading.signed negative' (binary32.reading code')) ↔
      CodeLe negative code negative' code' := by
  cases negative <;> cases negative'
  · exact reading_le_iff proper proper'
  · exact reading_le_neg_iff proper proper'
  · exact iff_of_true
      (Fpfmt.neg_reading_le (reading_ne_nan proper) (reading_ne_nan proper')) trivial
  · refine Iff.trans ⟨fun ordered => ?_, Reading.neg_le⟩ (reading_le_iff proper' proper)
    have turned : (binary32.reading code').neg.neg.le (binary32.reading code).neg.neg :=
      Reading.neg_le ordered
    rwa [Reading.neg_neg, Reading.neg_neg] at turned

end Order

end HandsOn.Bfloat16
