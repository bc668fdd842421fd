import HandsOn.Minifloat.Widen

/-!
# The narrowing functions

The four functions from `float` to a smaller format differ in their constants only. On
numbers, each is a monotone function of the `float` without its sign: the truncated
magnitude below the first normal number of the format, the rounded code from there on, and
one code from where that overflows.
-/

namespace HandsOn.Minifloat

/-- The constants of a narrowing function. -/
structure Narrowing where
  /-- The position of the sign. -/
  signBit : ℕ
  /-- The width of the mantissa. -/
  msize : ℕ
  /-- The difference of the biases. -/
  delta : ℕ
  /-- The exponent at which the format overflows, all ones. -/
  expMax : ℕ
  /-- The code for an overflow. -/
  saturated : ℕ
  /-- The code for a NaN or an infinity, by its mantissa. -/
  special : ℕ → ℕ

namespace Narrowing

/-- The body of the narrowing functions. -/
def narrow (n : Narrowing) (u : UInt32) : UInt8 :=
  let sign := u.toNat >>> 31
  let exp32 := (u.toNat >>> 23) &&& 0xFF
  let mant32 := u.toNat &&& 0x7FFFFF
  let mask := (1 <<< n.msize) - 1
  if exp32 = 0xFF then
    .ofNat ((sign <<< n.signBit) ||| n.special mant32)
  else
    let adjExp : Int := (exp32 : Int) - n.delta
    if (n.expMax : Int) ≤ adjExp then
      .ofNat ((sign <<< n.signBit) ||| n.saturated)
    else if adjExp ≤ 0 then
      if exp32 = 0 ∨ adjExp < -(n.msize : Int) then
        .ofNat (sign <<< n.signBit)
      else
        let sm := (mant32 ||| 0x800000) >>> ((24 : Int) - n.msize - adjExp).toNat
        .ofNat ((sign <<< n.signBit) ||| (sm &&& mask))
    else
      let rm := (mant32 + (1 <<< (22 - n.msize))) >>> (23 - n.msize)
      let m := rm &&& mask
      let e := (adjExp + (rm >>> n.msize : ℕ)).toNat
      if n.expMax ≤ e then
        .ofNat ((sign <<< n.signBit) ||| n.saturated)
      else
        .ofNat ((sign <<< n.signBit) ||| ((e &&& n.expMax) <<< n.msize) ||| m)

end Narrowing

def f8e4m3 : Narrowing := ⟨7, 3, 120, 15, 0x77, fun _ => 0x7F⟩

def f8e5m2 : Narrowing := ⟨7, 2, 112, 31, 0x7C, fun mant32 => if mant32 ≠ 0 then 0x7F else 0x7C⟩

def f6e3m2 : Narrowing := ⟨5, 2, 124, 7, 0x1E, fun _ => 0x1F⟩

def f4e2m1 : Narrowing := ⟨3, 1, 126, 3, 0x7, fun _ => 0x7⟩

/-- `f32_to_f8e4m3` -/
def f32ToF8e4m3 : UInt32 → UInt8 := f8e4m3.narrow

/-- `f32_to_f8e5m2` -/
def f32ToF8e5m2 : UInt32 → UInt8 := f8e5m2.narrow

/-- `f32_to_f6e3m2` -/
def f32ToF6e3m2 : UInt32 → UInt8 := f6e3m2.narrow

/-- `f32_to_f4e2m1` -/
def f32ToF4e2m1 : UInt32 → UInt8 := f4e2m1.narrow

/-! ### Narrowing as a monotone function -/

namespace Narrowing

variable (n : Narrowing)

/-- The constants belong to a format of at most eight bits with exponents `esize` wide. -/
structure Fits (esize : ℕ) : Prop where
  signBit : n.signBit = n.msize + esize
  byte : n.signBit < 8
  mantissa : n.msize ≤ 22
  expMax : n.expMax = 2 ^ esize - 1
  several : 1 < n.expMax
  delta : n.msize ≤ n.delta
  saturated : n.saturated < 2 ^ n.signBit

/-- The code of a magnitude, were there no largest one. -/
def rounded (code : ℕ) : ℕ :=
  if code / 2 ^ 23 ≤ n.delta then magnitude 23 code / 2 ^ (23 - n.msize + n.delta)
  else (code + 2 ^ (22 - n.msize)) / 2 ^ (23 - n.msize) - n.delta * 2 ^ n.msize

/-- The code of a magnitude. -/
def narrowed (code : ℕ) : ℕ :=
  if n.expMax * 2 ^ n.msize ≤ n.rounded code then n.saturated else n.rounded code

end Narrowing

/-- A field above another. -/
theorem shiftLeft_or_eq (high : ℕ) {low size : ℕ} (bounded : low < 2 ^ size) :
    (high <<< size) ||| low = high * 2 ^ size + low := by
  rw [Nat.shiftLeft_eq, Nat.mul_comm, Nat.two_pow_add_eq_or_of_lt bounded]

namespace Narrowing

variable {n : Narrowing} {esize exponent mantissa : ℕ} (fits : n.Fits esize)
include fits

theorem Fits.two_pow_signBit : 2 ^ n.signBit = 2 ^ esize * 2 ^ n.msize := by
  rw [fits.signBit, Nat.add_comm, Nat.pow_add]

theorem Fits.two_pow_esize : 2 ^ esize = n.expMax + 1 := by
  have positive := Nat.two_pow_pos esize
  have expMax := fits.expMax
  omega

/-- A signed code is a byte. -/
theorem toNat_ofNat_code (negative : Bool) {code : ℕ} (bounded : code < 2 ^ n.signBit) :
    (UInt8.ofNat (negative.toNat * 2 ^ n.signBit + code)).toNat =
      negative.toNat * 2 ^ n.signBit + code := by
  have sign : negative.toNat ≤ 1 := Bool.toNat_le negative
  have room : 2 ^ n.signBit * 2 ≤ 2 ^ 8 := by
    rw [← Nat.pow_succ]
    exact Nat.pow_le_pow_right Nat.two_pos fits.byte
  have high := Nat.mul_le_mul_right (2 ^ n.signBit) sign
  rw [UInt8.toNat_ofNat', Nat.mod_eq_of_lt (by omega)]

omit fits in
/-- Below the first normal result the mantissa with its hidden bit is truncated. -/
theorem rounded_subnormal (bounded : mantissa < 2 ^ 23) (low : exponent + 1 ≤ n.delta) :
    n.rounded ((exponent + 1) * 2 ^ 23 + mantissa) =
      (2 ^ 23 + mantissa) / 2 ^ (23 - n.msize + n.delta - exponent) := by
  have shift : 2 ^ (23 - n.msize + n.delta) =
      2 ^ (23 - n.msize + n.delta - exponent) * 2 ^ exponent := by
    rw [← Nat.pow_add, Nat.sub_add_cancel (by omega)]
  rw [rounded, exponent_eq bounded, if_pos low, magnitude_normal bounded, shift,
    Nat.mul_div_mul_right _ _ (Nat.two_pow_pos exponent)]

/-- From the first normal result on the mantissa is rounded, with a carry into the exponent. -/
theorem rounded_normal (bounded : mantissa < 2 ^ 23) (high : n.delta < exponent) :
    n.rounded (exponent * 2 ^ 23 + mantissa) =
      (exponent - n.delta) * 2 ^ n.msize +
        (mantissa + 2 ^ (22 - n.msize)) / 2 ^ (23 - n.msize) := by
  have mantissaBits := fits.mantissa
  have width : 2 ^ 23 = 2 ^ (23 - n.msize) * 2 ^ n.msize := by
    rw [← Nat.pow_add, Nat.sub_add_cancel (by omega)]
  rw [rounded, exponent_eq bounded, if_neg (by omega), Nat.add_assoc]
  nth_rewrite 1 [width]
  rw [Nat.mul_left_comm, Nat.mul_add_div (Nat.two_pow_pos _), Nat.sub_mul, Nat.sub_add_comm]
  exact Nat.mul_le_mul_right _ high.le

/-- Subnormal results are below the first normal one. -/
theorem rounded_lt {code : ℕ} (low : code / 2 ^ 23 ≤ n.delta) : n.rounded code < 2 ^ n.msize := by
  have mantissaBits := fits.mantissa
  have delta := fits.delta
  obtain ⟨exponent, mantissa, bounded, rfl⟩ := exists_fields 23 code
  rw [exponent_eq bounded] at low
  cases exponent with
  | zero =>
      rw [rounded, exponent_eq bounded, if_pos low, Nat.zero_mul, Nat.zero_add,
        magnitude_subnormal bounded, Nat.div_eq_of_lt]
      · exact Nat.two_pow_pos _
      · exact bounded.trans_le (Nat.pow_le_pow_right Nat.two_pos (by omega))
  | succ exponent =>
      rw [rounded_subnormal bounded low]
      apply Nat.div_lt_of_lt_mul
      rw [← Nat.pow_add]
      have hidden : 2 ^ 23 + mantissa < 2 ^ 24 := by omega
      exact hidden.trans_le (Nat.pow_le_pow_right Nat.two_pos (by omega))

/-- Normal results are at or above the first normal one. -/
theorem le_rounded {code : ℕ} (high : n.delta < code / 2 ^ 23) :
    (code / 2 ^ 23 - n.delta) * 2 ^ n.msize ≤ n.rounded code := by
  obtain ⟨exponent, mantissa, bounded, rfl⟩ := exists_fields 23 code
  rw [exponent_eq bounded] at high ⊢
  rw [rounded_normal fits bounded high]
  exact Nat.le_add_right _ _

/-- Larger magnitudes have larger codes. -/
theorem rounded_mono : Monotone n.rounded := by
  intro code code' le
  rcases Nat.lt_or_ge n.delta (code' / 2 ^ 23) with high | low
  · rcases Nat.lt_or_ge n.delta (code / 2 ^ 23) with high' | low'
    · rw [rounded, rounded, if_neg high.not_ge, if_neg high'.not_ge]
      exact Nat.sub_le_sub_right (Nat.div_le_div_right (Nat.add_le_add_right le _)) _
    · have first : 1 * 2 ^ n.msize ≤ (code' / 2 ^ 23 - n.delta) * 2 ^ n.msize :=
        Nat.mul_le_mul_right _ (by omega)
      have below := rounded_lt fits low'
      have above := le_rounded fits high
      omega
  · have low' : code / 2 ^ 23 ≤ n.delta := (Nat.div_le_div_right le).trans low
    rw [rounded, rounded, if_pos low, if_pos low']
    exact Nat.div_le_div_right ((magnitude_strictMono 23).monotone le)

/-- Where the result overflows is decided by the exponent and a carry into it. -/
theorem overflows_iff (bounded : mantissa < 2 ^ 23) (high : n.delta < exponent) :
    n.expMax * 2 ^ n.msize ≤ n.rounded (exponent * 2 ^ 23 + mantissa) ↔
      n.expMax ≤ exponent - n.delta +
        (mantissa + 2 ^ (22 - n.msize)) / 2 ^ (23 - n.msize) / 2 ^ n.msize := by
  rw [rounded_normal fits bounded high, ← Nat.le_div_iff_mul_le (Nat.two_pow_pos _),
    Nat.mul_comm (exponent - n.delta), Nat.mul_add_div (Nat.two_pow_pos _)]

/-- A code is smaller than the sign. -/
theorem narrowed_lt (code : ℕ) : n.narrowed code < 2 ^ n.signBit := by
  rw [narrowed]
  split
  · exact fits.saturated
  · rename_i within
    have exponents := Nat.mul_le_mul_right (2 ^ n.msize) (Nat.le_of_eq fits.two_pow_esize.symm)
    rw [Nat.succ_mul, ← fits.two_pow_signBit] at exponents
    exact (Nat.lt_of_not_ge within).trans_le (Nat.le_of_add_right_le exponents)

/-- Where an overflow gives the largest code at least, larger magnitudes have larger codes. -/
theorem narrowed_mono (saturated : n.expMax * 2 ^ n.msize ≤ n.saturated + 1) :
    Monotone n.narrowed := by
  intro code code' le
  have larger := rounded_mono fits le
  rw [narrowed, narrowed]
  split <;> split
  · exact Nat.le_refl _
  · omega
  · omega
  · exact larger

/-- Results below the first normal one do not overflow. -/
theorem narrowed_of_low {code : ℕ} (low : code / 2 ^ 23 ≤ n.delta) :
    n.narrowed code = n.rounded code := by
  have below := rounded_lt fits low
  have least := Nat.mul_le_mul_right (2 ^ n.msize) fits.several.le
  rw [narrowed, if_neg (by omega)]

/-- A `float` too small for the format becomes a zero. -/
theorem rounded_zero (bounded : mantissa < 2 ^ 23)
    (tiny : exponent = 0 ∨ exponent + n.msize < n.delta) :
    n.rounded (exponent * 2 ^ 23 + mantissa) = 0 := by
  have mantissaBits := fits.mantissa
  have delta := fits.delta
  cases exponent with
  | zero =>
      rw [rounded, exponent_eq bounded, if_pos (Nat.zero_le _), Nat.zero_mul, Nat.zero_add,
        magnitude_subnormal bounded, Nat.div_eq_of_lt]
      exact bounded.trans_le (Nat.pow_le_pow_right Nat.two_pos (by omega))
  | succ exponent =>
      have small : exponent + 1 + n.msize < n.delta := tiny.resolve_left exponent.succ_ne_zero
      rw [rounded_subnormal bounded (by omega), Nat.div_eq_of_lt]
      have hidden : 2 ^ 23 + mantissa < 2 ^ 24 := by omega
      exact hidden.trans_le (Nat.pow_le_pow_right Nat.two_pos (by omega))

omit fits in
/-- The fields of a `float`. -/
theorem float_fields (negative : Bool) (bounded : mantissa < 2 ^ 23) (number : exponent < 255)
    {u : UInt32} (bits : u.toNat = negative.toNat * 2 ^ 31 + (exponent * 2 ^ 23 + mantissa)) :
    u.toNat >>> 31 = negative.toNat ∧ (u.toNat >>> 23) &&& 0xFF = exponent ∧
      u.toNat &&& 0x7FFFFF = mantissa := by
  have packed : binary32.Packed := ⟨rfl, rfl, rfl⟩
  have within : exponent * 2 ^ 23 + mantissa < 2 ^ 31 := by omega
  obtain ⟨_, exp32, mant32⟩ := Fpfmt.fields_eq packed negative within
  rw [bits]
  refine ⟨?_, exp32.trans (exponent_eq bounded), mant32.trans (mantissa_eq bounded)⟩
  rw [Nat.shiftRight_eq_div_pow, exponent_eq within]

/-- The fields of a normal result, with the carry out of the mantissa, make up its code. -/
theorem normal_code (sign : ℕ) {base rm : ℕ} (within : base + rm / 2 ^ n.msize < n.expMax) :
    ((sign <<< n.signBit) ||| (((base + rm / 2 ^ n.msize) &&& n.expMax) <<< n.msize) |||
        (rm &&& (2 ^ n.msize - 1))) =
      sign * 2 ^ n.signBit + (base * 2 ^ n.msize + rm) := by
  have exponents := fits.two_pow_esize
  have field : base + rm / 2 ^ n.msize < 2 ^ esize := by omega
  have high : (base + rm / 2 ^ n.msize) <<< n.msize < 2 ^ n.signBit := by
    rw [Nat.shiftLeft_eq, fits.two_pow_signBit]
    exact Nat.mul_lt_mul_of_pos_right field (Nat.two_pow_pos _)
  have low : rm % 2 ^ n.msize < 2 ^ n.msize := Nat.mod_lt _ (Nat.two_pow_pos _)
  have both : sign * 2 ^ n.signBit + (base + rm / 2 ^ n.msize) <<< n.msize =
      (sign * 2 ^ esize + (base + rm / 2 ^ n.msize)) <<< n.msize := by
    rw [Nat.shiftLeft_eq, Nat.shiftLeft_eq, fits.two_pow_signBit]
    ring
  have whole := Nat.div_add_mod' rm (2 ^ n.msize)
  rw [fits.expMax, Nat.and_two_pow_sub_one_of_lt_two_pow field, shiftLeft_or_eq _ high, both,
    Nat.and_two_pow_sub_one_eq_mod, shiftLeft_or_eq _ low, ← Nat.shiftLeft_eq, ← both,
    Nat.shiftLeft_eq, Nat.add_mul]
  omega

/-- A number is narrowed to the code of its magnitude with its sign. -/
theorem narrow_eq (negative : Bool) (bounded : mantissa < 2 ^ 23) (number : exponent < 255)
    {u : UInt32} (bits : u.toNat = negative.toNat * 2 ^ 31 + (exponent * 2 ^ 23 + mantissa)) :
    (n.narrow u).toNat =
      negative.toNat * 2 ^ n.signBit + n.narrowed (exponent * 2 ^ 23 + mantissa) := by
  obtain ⟨sign, exp32, mant32⟩ := float_fields negative bounded number bits
  have small := narrowed_lt fits (exponent * 2 ^ 23 + mantissa)
  rw [← toNat_ofNat_code fits negative small]
  refine congrArg UInt8.toNat ?_
  simp only [narrow, sign, exp32, mant32]
  rw [if_neg number.ne]
  by_cases low : exponent ≤ n.delta
  · have several := fits.several
    rw [narrowed_of_low fits (by rwa [exponent_eq bounded]), if_neg (by omega), if_pos (by omega)]
    by_cases tiny : exponent = 0 ∨ (exponent : Int) - n.delta < -(n.msize : Int)
    · rw [if_pos tiny, rounded_zero fits bounded (by omega), Nat.shiftLeft_eq, Nat.add_zero]
    · rw [if_neg tiny]
      obtain ⟨predecessor, rfl⟩ := Nat.exists_eq_succ_of_ne_zero fun zero => tiny (.inl zero)
      have mantissaBits := fits.mantissa
      have hidden : mantissa ||| 0x800000 = 2 ^ 23 + mantissa := by
        rw [Nat.or_comm]
        exact (shiftLeft_or_eq 1 bounded).trans (by rw [Nat.one_mul])
      have shift : ((24 : Int) - n.msize - ((predecessor.succ : ℕ) - n.delta)).toNat =
          23 - n.msize + n.delta - predecessor := by omega
      have below : n.rounded ((predecessor + 1) * 2 ^ 23 + mantissa) < 2 ^ n.msize :=
        rounded_lt fits (by rwa [exponent_eq bounded])
      have truncated := rounded_subnormal bounded low
      rw [hidden, shift, Nat.shiftRight_eq_div_pow, Nat.one_shiftLeft, ← truncated,
        Nat.and_two_pow_sub_one_of_lt_two_pow below, shiftLeft_or_eq]
      exact below.trans_le (Nat.pow_le_pow_right Nat.two_pos (fits.signBit ▸ Nat.le_add_right _ _))
  · have high : n.delta < exponent := Nat.lt_of_not_ge low
    have overflow := overflows_iff fits bounded high
    by_cases large : (n.expMax : Int) ≤ (exponent : Int) - n.delta
    · have least : n.expMax ≤ exponent - n.delta := by omega
      rw [if_pos large, narrowed, if_pos (overflow.mpr (least.trans (Nat.le_add_right _ _))),
        shiftLeft_or_eq _ fits.saturated]
    · have base : (exponent : Int) - n.delta = (exponent - n.delta : ℕ) := by omega
      rw [if_neg large, if_neg (by omega), Nat.one_shiftLeft, Nat.one_shiftLeft,
        Nat.shiftRight_eq_div_pow, Nat.shiftRight_eq_div_pow, base, ← Nat.cast_add,
        Int.toNat_natCast]
      by_cases full : n.expMax * 2 ^ n.msize ≤ n.rounded (exponent * 2 ^ 23 + mantissa)
      · rw [if_pos (overflow.mp full), narrowed, if_pos full, shiftLeft_or_eq _ fits.saturated]
      · have within := Nat.lt_of_not_ge (mt overflow.mpr full)
        rw [if_neg (mt overflow.mpr full), narrowed, if_neg full, normal_code fits _ within,
          rounded_normal fits bounded high]

/-- The first magnitude that overflows lies half a step below the first exponent that does. -/
theorem overflow_iff_le {code : ℕ} :
    n.expMax * 2 ^ n.msize ≤ n.rounded code ↔
      (n.delta + n.expMax) * 2 ^ 23 ≤ code + 2 ^ (22 - n.msize) := by
  have mantissaBits := fits.mantissa
  have several := fits.several
  have half : 0 < 2 ^ (22 - n.msize) := Nat.two_pow_pos _
  have width : 2 ^ n.msize * 2 ^ (23 - n.msize) = 2 ^ 23 := by
    rw [← Nat.pow_add, Nat.add_sub_cancel' (by omega)]
  by_cases low : code / 2 ^ 23 ≤ n.delta
  · have below := rounded_lt fits low
    have least := Nat.mul_le_mul_right (2 ^ n.msize) several.le
    have small : 2 ^ (22 - n.msize) ≤ 2 ^ 22 := Nat.pow_le_pow_right Nat.two_pos (by omega)
    constructor <;> intro <;> omega
  · have fitting : n.delta * 2 ^ n.msize ≤ (code + 2 ^ (22 - n.msize)) / 2 ^ (23 - n.msize) := by
      apply (Nat.le_div_iff_mul_le (Nat.two_pow_pos _)).mpr
      rw [Nat.mul_assoc, width]
      omega
    rw [rounded, if_neg low, Nat.le_sub_iff_add_le fitting, ← Nat.add_mul, Nat.add_comm n.expMax,
      Nat.le_div_iff_mul_le (Nat.two_pow_pos _), Nat.mul_assoc, width]

end Narrowing

end HandsOn.Minifloat
