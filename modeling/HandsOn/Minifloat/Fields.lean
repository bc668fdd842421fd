import HandsOn.Minifloat.Agreement

/-!
# The fields of a `float`

Every `float` is a number, or has the largest exponent and is an infinity or a NaN. The
narrowing functions keep its sign.
-/

namespace HandsOn.Minifloat

/-- The sign of a `float` is set. -/
def isNegative (u : UInt32) : Bool := decide (u.toNat >>> 31 = 1)

/-- The fields of a `float` that is no number. -/
structure Special (u : UInt32) where
  negative : Bool
  mantissa : ℕ
  bounded : mantissa < 2 ^ 23
  bits : u.toNat = negative.toNat * 2 ^ 31 + (255 * 2 ^ 23 + mantissa)

/-- Every `float` is a number or has the largest exponent. -/
theorem number_or_special (u : UInt32) :
    (∃ x, floatValue u = .finite x ∧ Nonempty (Number u x)) ∨ Nonempty (Special u) := by
  obtain ⟨negative, code, within, bits⟩ := exists_sign u
  obtain ⟨exponent, mantissa, bounded, rfl⟩ := exists_fields 23 code
  rcases Nat.lt_or_ge exponent 255 with number | top
  · have inside : (exponent * 2 ^ 23 + mantissa) / 2 ^ binary32.msize ≠
        2 ^ binary32.esize - 1 := by
      rw [show binary32.msize = 23 from rfl, exponent_eq bounded]
      exact number.ne
    have entry := Fpfmt.widenEntry_eq packed_binary32 negative within
    rw [Fpfmt.reading, if_neg inside] at entry
    refine .inl ⟨_, ?_, ⟨negative, exponent, mantissa, bounded, number, bits, rfl⟩⟩
    rw [floatValue, bits]
    refine entry.trans ?_
    cases negative <;> rfl
  · have whole : exponent = 255 := by omega
    subst whole
    exact .inr ⟨negative, mantissa, bounded, bits⟩

namespace Number

variable {u : UInt32} {x : ℚ} (number : Number u x)

theorem sign_eq : u.toNat >>> 31 = number.negative.toNat :=
  (Narrowing.float_fields number.negative number.bounded number.number number.bits).1

theorem exponent_eq : (u.toNat >>> 23) &&& 0xFF = number.exponent :=
  (Narrowing.float_fields number.negative number.bounded number.number number.bits).2.1

theorem isNegative_eq : isNegative u = number.negative := by
  rw [isNegative, number.sign_eq]
  cases number.negative <;> rfl

end Number

namespace Special

variable {u : UInt32} (special : Special u)

theorem within : 255 * 2 ^ 23 + special.mantissa < 2 ^ 31 := by
  have bounded := special.bounded
  omega

theorem fields : u.toNat >>> 31 = special.negative.toNat ∧ (u.toNat >>> 23) &&& 0xFF = 255 ∧
    u.toNat &&& 0x7FFFFF = special.mantissa := by
  have bounded := special.bounded
  obtain ⟨_, exp32, mant32⟩ := Fpfmt.fields_eq packed_binary32 special.negative special.within
  rw [special.bits]
  refine ⟨?_, exp32.trans (Minifloat.exponent_eq bounded), mant32.trans (mantissa_eq bounded)⟩
  rw [Nat.shiftRight_eq_div_pow, Minifloat.exponent_eq special.within]

/-- An infinity has no mantissa. -/
theorem floatValue_eq : floatValue u =
    .signed special.negative (if special.mantissa = 0 then .infinite false else .nan) := by
  have top : (255 * 2 ^ 23 + special.mantissa) / 2 ^ binary32.msize = 2 ^ binary32.esize - 1 :=
    Minifloat.exponent_eq special.bounded
  have mantissa : (255 * 2 ^ 23 + special.mantissa) % 2 ^ binary32.msize = special.mantissa :=
    mantissa_eq special.bounded
  rw [floatValue, special.bits]
  refine (Fpfmt.widenEntry_eq packed_binary32 _ special.within).trans ?_
  rw [Fpfmt.reading, if_pos top, mantissa]
  simp [Reading.signed, binary32]

/-- The code of a `float` that is no number has its sign. -/
theorem toNat_narrow (format : Format)
    (bounded : format.narrowing.special special.mantissa < 2 ^ format.narrowing.signBit) :
    (format.narrow u).toNat = special.negative.toNat * 2 ^ format.narrowing.signBit +
      format.narrowing.special special.mantissa := by
  obtain ⟨sign, exp32, mant32⟩ := special.fields
  rw [Format.narrow_eq_narrowing,
    ← Narrowing.toNat_ofNat_code format.paired.fits special.negative bounded,
    ← shiftLeft_or_eq _ bounded]
  simp only [Narrowing.narrow, sign, exp32, mant32, if_true]

end Special

/-- An infinity is no number and has no mantissa. -/
theorem exists_special_infinite {u : UInt32} {negative : Bool}
    (infinite : floatValue u = .infinite negative) :
    ∃ special : Special u, special.mantissa = 0 ∧ special.negative = negative := by
  rcases number_or_special u with ⟨x, finite, _⟩ | ⟨⟨special⟩⟩
  · cases finite.symm.trans infinite
  · rw [special.floatValue_eq] at infinite
    cases sign : special.negative <;> rw [sign] at infinite <;> split at infinite <;> cases infinite
    · exact ⟨special, ‹_›, sign⟩
    · exact ⟨special, ‹_›, sign⟩

/-- A NaN is no number and has a mantissa. -/
theorem exists_special_nan {u : UInt32} (nan : floatValue u = .nan) :
    ∃ special : Special u, special.mantissa ≠ 0 := by
  rcases number_or_special u with ⟨x, finite, _⟩ | ⟨⟨special⟩⟩
  · cases finite.symm.trans nan
  · refine ⟨special, fun none => ?_⟩
    rw [special.floatValue_eq, if_pos none] at nan
    cases sign : special.negative <;> rw [sign] at nan <;> cases nan

namespace Format

/-- The code of an infinity or a NaN fits below the sign. -/
theorem special_lt (format : Format) (mantissa : ℕ) :
    format.narrowing.special mantissa < 2 ^ format.narrowing.signBit := by
  cases format with
  | e5m2 =>
      change (if mantissa ≠ 0 then 0x7F else 0x7C) < 2 ^ 7
      split <;> decide
  | e4m3 => exact (by decide : 0x7F < 2 ^ 7)
  | e3m2 => exact (by decide : 0x1F < 2 ^ 5)
  | e2m1 => exact (by decide : 0x7 < 2 ^ 3)

/-- The narrowing functions keep the sign, and set no bit above it. -/
theorem narrow_sign (format : Format) (u : UInt32) :
    (format.narrow u).toNat >>> format.narrowing.signBit = u.toNat >>> 31 ∧
      (format.narrow u).toNat < 2 ^ (format.narrowing.signBit + 1) := by
  have signed : ∃ (negative : Bool) (code : ℕ), code < 2 ^ format.narrowing.signBit ∧
      u.toNat >>> 31 = negative.toNat ∧
      (format.narrow u).toNat = negative.toNat * 2 ^ format.narrowing.signBit + code := by
    rcases number_or_special u with ⟨x, _, ⟨number⟩⟩ | ⟨⟨special⟩⟩
    · refine ⟨number.negative, format.code number, ?_, number.sign_eq, ?_⟩
      · rw [signBit_eq]
        exact format.code_lt number
      · rw [signBit_eq]
        exact format.toNat_narrow number
    · exact ⟨special.negative, _, format.special_lt _, special.fields.1,
        special.toNat_narrow format (format.special_lt _)⟩
  obtain ⟨negative, code, bounded, sign, bits⟩ := signed
  have one := Bool.toNat_le negative
  rw [bits, sign, Nat.shiftRight_eq_div_pow, Minifloat.exponent_eq bounded, Nat.pow_succ]
  refine ⟨rfl, ?_⟩
  have high := Nat.mul_le_mul_right (2 ^ format.narrowing.signBit) one
  omega

end Format

end HandsOn.Minifloat
