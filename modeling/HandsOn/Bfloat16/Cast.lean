import HandsOn.Minifloat.Widen

/-!
# Conversions between `double`, `float` and `bfloat16`

A `bfloat16` is the upper half of a `float`. The casts between `float` and `double` are
those of IEEE 754: exact in one direction, to the nearest `float` in the other, to the one
with an even mantissa where two are equally near.
-/

namespace HandsOn.Bfloat16

open HandsOn.Minifloat

/-- `f32_to_bf16` -/
def f32ToBf16 (u : UInt32) : UInt16 :=
  let isNan := (u &&& 0x7F800000) = 0x7F800000 ∧ (u &&& 0x007FFFFF) ≠ 0
  let rounded := u + 0x8000
  if isNan then ((u >>> 16) ||| 0x0040).toUInt16 else (rounded >>> 16).toUInt16

/-- `(uint32_t)*src << 16` -/
def bf16ToF32 (src : UInt16) : UInt32 := src.toUInt32 <<< 16

/-- The fields of a `double`. -/
def binary64 : Fpfmt := ⟨63, 52, 11, 1023, 0, 52, 64, false⟩

/-- The value of a `double`. -/
def doubleValue (d : UInt64) : Reading := widenEntry binary64 d.toNat

/-- The nearest quotient, the even one of two that are equally near. -/
def divNearestEven (number divisor : ℕ) : ℕ :=
  let quotient := number / divisor
  let twice := 2 * (number % divisor)
  if twice < divisor ∨ twice = divisor ∧ quotient % 2 = 0 then quotient else quotient + 1

/-- The smallest subnormal `float`, in those of `double`. -/
def floatUnit : ℕ := 2 ^ 925

/-- The code of the `float` next to a `double` without sign. -/
def narrowCode (code : ℕ) : ℕ :=
  if code >>> 52 ≤ 896 then divNearestEven (magnitude 52 code) floatUnit
  else min (divNearestEven code (2 ^ 29) - (896 <<< 23)) 0x7F800000

/-- `(float)d` -/
def doubleToFloat (d : UInt64) : UInt32 :=
  let sign := d.toNat >>> 63
  let exp := (d.toNat >>> 52) &&& 0x7FF
  let mant := d.toNat &&& 0xFFFFFFFFFFFFF
  let code :=
    if exp = 0x7FF then if mant = 0 then 0x7F800000 else 0x7FC00000 ||| (mant >>> 29)
    else narrowCode ((exp <<< 52) ||| mant)
  .ofNat ((sign <<< 31) ||| code)

/-- `(double)f` -/
def floatToDouble (u : UInt32) : UInt64 :=
  let sign := u.toNat >>> 31
  let exp := (u.toNat >>> 23) &&& 0xFF
  let mant := u.toNat &&& 0x7FFFFF
  let code :=
    if exp = 0xFF then
      if mant = 0 then 0x7FF0000000000000 else 0x7FF8000000000000 ||| (mant <<< 29)
    else if exp = 0 then
      if mant = 0 then 0
      else
        let log := mant.log2
        ((log + 874) <<< 52) ||| ((mant <<< (52 - log)) - 0x10000000000000)
    else ((exp + 896) <<< 52) ||| (mant <<< 29)
  .ofNat ((sign <<< 63) ||| code)

end HandsOn.Bfloat16
