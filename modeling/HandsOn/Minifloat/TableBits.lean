import HandsOn.Minifloat.Agreement

/-!
# The bit patterns in the widening tables

The tables hold `float` values, and the converters copy their bytes. The entries are bit
patterns here, and stand for what the tables of readings say.
-/

namespace HandsOn.Minifloat

/-- The `float` with the value `mantissa * 2 ^ exponent`, a normal number or zero. -/
def dyadicFloat (mantissa : ℕ) (exponent : ℤ) : UInt32 :=
  if mantissa = 0 then 0
  else
    let log := mantissa.log2
    .ofNat (((log + exponent + 127).toNat <<< 23) ||| ((mantissa <<< (23 - log)) - 0x800000))

/-- The body of the loop of `build_widen_lut`, on bit patterns. -/
def widenBits (f : Fpfmt) (code : ℕ) : UInt32 :=
  let expMax := (1 <<< f.esize) - 1
  let sign := (code >>> f.signBit) &&& 1
  let exp := (code >>> f.epos) &&& expMax
  let mant := (code >>> f.mpos) &&& ((1 <<< f.msize) - 1)
  let val : UInt32 :=
    if f.nanAllExpMax ∧ exp = expMax then 0x7FC00000
    else if ¬ f.nanAllExpMax ∧ exp = expMax then
      if mant = 0 then 0x7F800000 else 0x7FC00000
    else if exp = 0 then dyadicFloat mant (1 - (f.ebias : ℤ) - f.msize)
    else dyadicFloat ((1 <<< f.msize) + mant) ((exp : ℤ) - f.ebias - f.msize)
  if sign = 0 then val else val ^^^ 0x80000000

namespace Format

/-- The widening table, `g_lut_f8e4m3` and its siblings. -/
def bitsLut (format : Format) : List UInt32 :=
  (List.range format.nEntries).map (widenBits format.fpfmt)

/-- The table index of a byte: the widening converters mask the bits above a code. -/
def index : Format → UInt8 → ℕ
  | e4m3, src => src.toNat
  | e5m2, src => src.toNat
  | e3m2, src => src.toNat &&& 0x3F
  | e2m1, src => src.toNat &&& 0xF

/-- The table entry for a byte. -/
def widen (format : Format) (src : UInt8) : UInt32 := format.bitsLut.getD (format.index src) 0

/-- No byte leads outside the table. -/
theorem index_lt (format : Format) (src : UInt8) : format.index src < format.nEntries := by
  cases format with
  | e4m3 => exact src.toNat_lt
  | e5m2 => exact src.toNat_lt
  | e3m2 => exact Nat.lt_succ_of_le Nat.and_le_right
  | e2m1 => exact Nat.lt_succ_of_le Nat.and_le_right

/-- A bit pattern in a table stands for the entry of the table of readings. -/
theorem floatValue_widenBits (format : Format) : ∀ code < format.nEntries,
    floatValue (widenBits format.fpfmt code) = widenEntry format.fpfmt code := by
  cases format <;> decide +kernel

theorem floatValue_widen (format : Format) (src : UInt8) :
    format.lut[format.index src]? = some (floatValue (format.widen src)) := by
  have inside := format.index_lt src
  have entry : format.widen src = widenBits format.fpfmt (format.index src) := by
    simp [widen, bitsLut, List.getElem?_range inside]
  rw [lut, buildWidenLut, List.getElem?_map, List.getElem?_range inside, Option.map_some, entry,
    floatValue_widenBits format _ inside]

end Format

end HandsOn.Minifloat
