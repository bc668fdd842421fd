import HandsOn.Bfloat16.Double
import HandsOn.Bfloat16.Nearest

/-!
# `double` to `bfloat16`

The element is rounded twice. The second rounding starts from the midpoint of two `bfloat16`
values for every `double` that the first one took there, also for those a little below the
midpoint. Only these are not rounded to a nearest value.
-/

namespace HandsOn.Bfloat16

open HandsOn.Minifloat HandsOn.Numeric

/-- The body of the loop of `conv_double_bfloat16`. -/
def doubleToBf16 (d : UInt64) : UInt16 := f32ToBf16 (doubleToFloat d)

/-- The middle between a size and the next. -/
def midpoint (k : ℕ) : ℚ := (size k + size (k + 1)) / 2

/-- Where the first rounding starts to reach the midpoint. -/
def lift (k : ℕ) : ℚ := midpoint k - (size (k + 1) - size k) / 2 ^ 17

/-- The number lies below a midpoint by at most half a step of `float`. -/
def BelowMidpoint (x : ℚ) : Prop := ∃ k < 0x7F80, lift k ≤ |x| ∧ |x| < midpoint k

/-- A `double` becomes a nearest `bfloat16` value, an infinity from the threshold on. -/
structure RoundsToNearest (d : UInt64) (x : ℚ) : Prop where
  nearest : |x| < threshold →
    ∃ y, floatValue (bf16ToF32 (doubleToBf16 d)) = .finite y ∧ IsNearest bfloat16Values x y
  large : threshold ≤ |x| →
    floatValue (bf16ToF32 (doubleToBf16 d)) = .infinite (decide (x < 0))

theorem lift_le_midpoint (k : ℕ) : lift k ≤ midpoint k := by
  have order := size_strictMono (Nat.lt_succ_self k)
  rw [lift]
  linarith

theorem midpoint_mono : Monotone midpoint := by
  intro k k' le
  have low := size_strictMono.monotone le
  have high := size_strictMono.monotone (Nat.succ_le_succ le)
  rw [midpoint, midpoint]
  exact div_le_div_of_nonneg_right (add_le_add low high) two_pos.le

theorem size_le_lift (k : ℕ) : size k ≤ lift k := by
  have order := size_strictMono (Nat.lt_succ_self k)
  rw [lift, midpoint]
  linarith

/-- The threshold is the midpoint above the largest value. -/
theorem threshold_eq_midpoint : threshold = midpoint 0x7F7F := by decide +kernel

/-- The result exceeds a code from the lifted midpoint on. -/
theorem lt_rounded_iff (code : ℕ) {k : ℕ} (number : k < 0x7F80) :
    k < (narrowCode code + 2 ^ 15) / 2 ^ 16 ↔ lift k ≤ magnitude 52 code * binary64.unit := by
  obtain ⟨gap, evenly⟩ := exists_gap k
  have below := evenly (2 ^ 15 - 1) (by omega)
  have middle := evenly (2 ^ 15) (by omega)
  have next := evenly (2 ^ 16) (Nat.le_refl _)
  have unit := binary64.unit_pos
  have odd : (k * 2 ^ 16 + (2 ^ 15 - 1)) % 2 = 1 := by omega
  have quotient : k < (narrowCode code + 2 ^ 15) / 2 ^ 16 ↔
      k * 2 ^ 16 + (2 ^ 15 - 1) < narrowCode code := by omega
  have after : k * 2 ^ 16 + (2 ^ 15 - 1) + 1 = k * 2 ^ 16 + 2 ^ 15 := by omega
  have value : lift k = ((magnitude 23 (k * 2 ^ 16) + (2 ^ 15 - 1) * gap +
      (magnitude 23 (k * 2 ^ 16) + 2 ^ 15 * gap)) * floatUnit : ℕ) / 2 * binary64.unit := by
    rw [lift, midpoint, size, size, Nat.succ_mul, next, unit_binary32]
    push_cast
    ring
  rw [quotient, lt_narrowCode_iff code odd (by omega), after, below, middle, value,
    mul_le_mul_iff_left₀ unit, div_le_iff₀ two_pos, Nat.mul_comm 2]
  exact_mod_cast Iff.rfl

/-- The result is the code whose neighbours' midpoints, lifted, enclose the size, and has the
sign of the number. -/
theorem exists_rounded_double {d : UInt64} {x : ℚ} (finite : doubleValue d = .finite x) :
    ∃ (negative : Bool) (k : ℕ), k ≤ 0x7F80 ∧
      (doubleToBf16 d).toNat = negative.toNat * 2 ^ 15 + k ∧
      x = withSign negative |x| ∧ ∀ j < 0x7F80, j < k ↔ lift j ≤ |x| := by
  obtain ⟨negative, code, number, bits, value⟩ := exists_double finite
  have small := narrowCode_le code
  have nonneg : 0 ≤ (magnitude 52 code : ℚ) * binary64.unit :=
    mul_nonneg (Nat.cast_nonneg _) binary64.unit_pos.le
  have absolute : |x| = magnitude 52 code * binary64.unit := by rw [value, abs_withSign _ nonneg]
  refine ⟨negative, (narrowCode code + 2 ^ 15) / 2 ^ 16, by omega, ?_, by rwa [absolute], ?_⟩
  · exact toNat_f32ToBf16 (by omega) (toNat_doubleToFloat number bits) small
  · intro j inside
    rw [absolute]
    exact lt_rounded_iff code inside

theorem withSign_sub (negative : Bool) (a b : ℚ) :
    |withSign negative a - withSign negative b| = |a - b| := by
  cases negative with
  | false => rfl
  | true =>
      rw [← abs_neg (a - b)]
      congr 1
      exact neg_sub_neg a b |>.trans (neg_sub a b).symm

theorem nearest_withSign {a b : ℚ} (negative : Bool) (nearest : IsNearest (signed size) a b) :
    IsNearest (signed size) (withSign negative a) (withSign negative b) := by
  cases negative with
  | false => exact nearest
  | true => exact nearest.neg fun _ => neg_mem_signed

/-- A result that reaches the next value before the midpoint is not nearest. -/
theorem not_roundsToNearest {d : UInt64} {x : ℚ} (finite : doubleValue d = .finite x)
    (lifted : BelowMidpoint x) : ¬ RoundsToNearest d x := by
  intro rounds
  obtain ⟨negative, k, top, bits, value, codes⟩ := exists_rounded_double finite
  obtain ⟨j, inside, reached, below⟩ := lifted
  have exceeds := (codes j inside).mpr reached
  have small : |x| < threshold := by
    rw [threshold_eq_midpoint]
    exact below.trans_le (midpoint_mono (Nat.le_of_lt_succ inside))
  obtain ⟨y, result, nearest⟩ := rounds.nearest small
  rcases Nat.lt_or_eq_of_le top with number | infinite
  · rw [floatValue_bf16ToF32_number bits number] at result
    obtain rfl := Reading.finite.inj result
    have member : withSign negative (size j) ∈ bfloat16Values :=
      mem_bfloat16Values.mpr ⟨j, inside, abs_withSign negative (size_nonneg j)⟩
    have nearer := nearest.le _ member
    rw [value, withSign_sub, withSign_sub] at nearer
    have next : size (j + 1) ≤ size k := size_strictMono.monotone exceeds
    have low := (size_le_lift j).trans reached
    rw [abs_of_nonneg (sub_nonneg.mpr low)] at nearer
    have far := neg_abs_le (|x| - size k)
    rw [midpoint] at below
    linarith
  · rw [floatValue_bf16ToF32_infinite bits infinite] at result
    cases result

/-- Elsewhere the result is nearest. -/
theorem roundsToNearest {d : UInt64} {x : ℚ} (finite : doubleValue d = .finite x)
    (clear : ¬ BelowMidpoint x) : RoundsToNearest d x := by
  obtain ⟨negative, k, top, bits, value, codes⟩ := exists_rounded_double finite
  have midpoints : ∀ j < 0x7F80, j < k ↔ midpoint j ≤ |x| := by
    intro j inside
    rw [codes j inside]
    refine ⟨fun reached => ?_, (lift_le_midpoint j).trans⟩
    exact le_of_not_gt fun below => clear ⟨j, inside, reached, below⟩
  constructor
  · intro small
    rw [threshold_eq_midpoint] at small
    have number : k < 0x7F80 := by
      have last := mt (midpoints 0x7F7F (by decide)).mp small.not_ge
      omega
    have nearest : IsNearest (signed size) |x| (size k) := by
      refine isNearest_of_midpoints size_strictMono size_zero (abs_nonneg x) (fun j below => ?_) ?_
      · have reached := (midpoints j (by omega)).mp below
        rw [midpoint] at reached
        linarith
      · have missed := mt (midpoints k number).mpr (Nat.lt_irrefl k)
        rw [midpoint] at missed
        linarith
    have result := floatValue_bf16ToF32_number bits number
    have signedNearest := nearest_withSign negative nearest
    rw [← value] at signedNearest
    exact ⟨_, result, signedNearest.subset bfloat16Values_subset ⟨_, result⟩⟩
  · intro large
    rw [threshold_eq_midpoint] at large
    have last := (midpoints 0x7F7F (by decide)).mpr large
    rw [floatValue_bf16ToF32_infinite bits (by omega)]
    have positive : 0 < |x| := (by decide +kernel : 0 < midpoint 0x7F7F).trans_le large
    cases negative with
    | false =>
        have sign : ¬ x < 0 := value.symm ▸ (abs_nonneg x).not_gt
        rw [decide_eq_false sign]
    | true =>
        have sign : x < 0 := value.trans_lt (neg_lt_zero.mpr positive)
        rw [decide_eq_true sign]

/-- A finite `double` is rounded to a nearest value if and only if it is not just below a
midpoint. -/
theorem roundsToNearest_iff {d : UInt64} {x : ℚ} (finite : doubleValue d = .finite x) :
    RoundsToNearest d x ↔ ¬ BelowMidpoint x :=
  ⟨fun rounds lifted => not_roundsToNearest finite lifted rounds, roundsToNearest finite⟩

/-- In the lower half of an interval no number is below a midpoint. -/
theorem not_belowMidpoint {x : ℚ} {k : ℕ} (low : size k ≤ |x|) (high : |x| < lift k) :
    ¬ BelowMidpoint x := by
  rintro ⟨k', -, lifted, below⟩
  rcases Nat.lt_trichotomy k' k with earlier | rfl | later
  · have order := size_strictMono (Nat.lt_succ_self k')
    have next := size_strictMono.monotone (Nat.succ_le_of_lt earlier)
    rw [midpoint] at below
    linarith
  · exact absurd lifted (not_le.mpr high)
  · have order := size_strictMono (Nat.lt_succ_self k)
    have next := size_strictMono.monotone (Nat.succ_le_of_lt later)
    have upper := lift_le_midpoint k
    have lower := size_le_lift k'
    rw [midpoint] at upper
    linarith

/-- The `double` -1.3. -/
theorem roundsToNearest_minus_one_point_three :
    RoundsToNearest 0xBFF4CCCCCCCCCCCD (-(5854679515581645 / 4503599627370496)) :=
  (roundsToNearest_iff (by decide +kernel)).mpr
    (not_belowMidpoint (show size 0x3FA6 ≤ _ by decide +kernel) (by decide +kernel))

/-- The largest `double` below the midpoint of 1 and the next value goes up. -/
theorem not_roundsToNearest_midpoint :
    doubleValue 0x3FF00FFFFFFFFFFF = .finite (1 + 2 ^ (-8 : ℤ) - 2 ^ (-52 : ℤ)) ∧
      floatValue (bf16ToF32 (doubleToBf16 0x3FF00FFFFFFFFFFF)) = .finite (1 + 2 ^ (-7 : ℤ)) ∧
      ¬ RoundsToNearest 0x3FF00FFFFFFFFFFF (1 + 2 ^ (-8 : ℤ) - 2 ^ (-52 : ℤ)) := by
  have value : doubleValue 0x3FF00FFFFFFFFFFF = .finite (1 + 2 ^ (-8 : ℤ) - 2 ^ (-52 : ℤ)) := by
    decide +kernel
  have result : floatValue (bf16ToF32 (doubleToBf16 0x3FF00FFFFFFFFFFF)) =
      .finite (1 + 2 ^ (-7 : ℤ)) := by decide +kernel
  refine ⟨value, result, not_roundsToNearest value ⟨0x3F80, by decide, ?_, ?_⟩⟩
  · decide +kernel
  · decide +kernel

end HandsOn.Bfloat16
