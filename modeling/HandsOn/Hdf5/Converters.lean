import HandsOn.Bfloat16.Cast
import HandsOn.Minifloat.TableBits
import HandsOn.Mpi.Native
import HandsOn.Semantics.InPlace

/-!
# The registered converters

Each converter answers the commands of the library. It converts a packed array itself, in
place, and hands every other array back to `H5Tconvert`, which calls the converter that is
registered for the pair of types again. The functions here are told how to do that, and
`h5Tconvert` closes the recursion with a bound on the nested calls.
-/

namespace HandsOn.Hdf5

open HandsOn.Bfloat16 HandsOn.Minifloat HandsOn.Mpi HandsOn.Semantics

/-- `H5T_cmd_t`, with one member for the commands that the converters do not know. -/
inductive Command where
  | init
  | free
  | conv
  | other
deriving DecidableEq

/-- `H5T_bkg_t` -/
inductive Bkg where
  | no
  | temp
  | yes
deriving DecidableEq

/-- The parts of `H5T_cdata_t` that the converters use. -/
structure Cdata where
  command : Command
  needBkg : Bkg

/-- The pairs of source and destination types for which a converter is registered. -/
inductive TypePair where
  | widen (format : Format)
  | narrow (format : Format)
  | doubleBfloat16
  | floatBfloat16
  | bfloat16Double
  | bfloat16Float
deriving DecidableEq

/-- What a call leaves. -/
structure Outcome where
  status : ℤ
  cdata : Cdata
  buf : ByteBuffer

/-- `H5Tconvert`; `none` is a call that does not return. -/
abbrev Library := TypePair → ℕ → ByteBuffer → Option (ℤ × ByteBuffer)

/-- `H5T_conv_t` -/
abbrev Converter := Library → TypePair → Cdata → ℕ → ℕ → ByteBuffer → Option Outcome

/-! ### Elements -/

/-- The conversion of a `float` to one byte. -/
def fromFloat (narrow : UInt32 → UInt8) : Conversion where
  srcSize := 4
  dstSize := 1
  convert bytes := [narrow (.ofNat (ofBytes bytes))]
  length_convert _ := rfl

/-- The conversion of one byte to a `float`. -/
def toFloat (widen : UInt8 → UInt32) : Conversion where
  srcSize := 1
  dstSize := 4
  convert bytes := toBytes 4 (widen (.ofNat (ofBytes bytes))).toNat
  length_convert _ := length_toBytes 4 _

/-- The body of the loop of `conv_double_bfloat16`. -/
def doubleToBfloat16 : Conversion where
  srcSize := 8
  dstSize := 2
  convert bytes := toBytes 2 (f32ToBf16 (doubleToFloat (.ofNat (ofBytes bytes)))).toNat
  length_convert _ := length_toBytes 2 _

/-- The body of the loop of `conv_float_bfloat16`. -/
def floatToBfloat16 : Conversion where
  srcSize := 4
  dstSize := 2
  convert bytes := toBytes 2 (f32ToBf16 (.ofNat (ofBytes bytes))).toNat
  length_convert _ := length_toBytes 2 _

/-- The body of the loop of `conv_bfloat16_double`. -/
def bfloat16ToDouble : Conversion where
  srcSize := 2
  dstSize := 8
  convert bytes := toBytes 8 (floatToDouble (bf16ToF32 (.ofNat (ofBytes bytes)))).toNat
  length_convert _ := length_toBytes 8 _

/-- The body of the loop of `conv_bfloat16_float`. -/
def bfloat16ToFloat : Conversion where
  srcSize := 2
  dstSize := 4
  convert bytes := toBytes 4 (bf16ToF32 (.ofNat (ofBytes bytes))).toNat
  length_convert _ := length_toBytes 4 _

/-! ### Converters -/

/-- The `switch` on the command. -/
def onCommand (cdata : Cdata) (buf : ByteBuffer) (convert : Option Outcome) : Option Outcome :=
  match cdata.command with
  | .init => some ⟨0, { cdata with needBkg := .no }, buf⟩
  | .free => some ⟨0, cdata, buf⟩
  | .conv => convert
  | .other => some ⟨-1, cdata, buf⟩

/-- The call of `H5Tconvert` at the end of each converter. -/
def fallBack (h5Tconvert : Library) (pair : TypePair) (cdata : Cdata) (nelmts : ℕ)
    (buf : ByteBuffer) : Option Outcome :=
  (h5Tconvert pair nelmts buf).map fun result => ⟨result.1, cdata, result.2⟩

/-- The body of the converters to a smaller type. -/
def narrowing (conversion : Conversion) : Converter :=
  fun h5Tconvert pair cdata nelmts bufStride buf =>
    onCommand cdata buf
      (if bufStride = 0 then some ⟨0, cdata, conversion.upward nelmts buf⟩
      else fallBack h5Tconvert pair cdata nelmts buf)

/-- The body of the converters to a larger type. -/
def widening (conversion : Conversion) : Converter :=
  fun h5Tconvert pair cdata nelmts bufStride buf =>
    onCommand cdata buf
      (if bufStride = 0 ∧ 0 < nelmts then some ⟨0, cdata, conversion.downward nelmts buf⟩
      else fallBack h5Tconvert pair cdata nelmts buf)

/-- `conv_f8e4m3_float` -/
def convF8e4m3Float : Converter := widening (toFloat Format.e4m3.widen)

/-- `conv_float_f8e4m3` -/
def convFloatF8e4m3 : Converter := narrowing (fromFloat f32ToF8e4m3)

/-- `conv_f8e5m2_float` -/
def convF8e5m2Float : Converter := widening (toFloat Format.e5m2.widen)

/-- `conv_float_f8e5m2` -/
def convFloatF8e5m2 : Converter := narrowing (fromFloat f32ToF8e5m2)

/-- `conv_f6e3m2_float` -/
def convF6e3m2Float : Converter := widening (toFloat Format.e3m2.widen)

/-- `conv_float_f6e3m2` -/
def convFloatF6e3m2 : Converter := narrowing (fromFloat f32ToF6e3m2)

/-- `conv_f4e2m1_float` -/
def convF4e2m1Float : Converter := widening (toFloat Format.e2m1.widen)

/-- `conv_float_f4e2m1` -/
def convFloatF4e2m1 : Converter := narrowing (fromFloat f32ToF4e2m1)

/-- `conv_double_bfloat16` -/
def convDoubleBfloat16 : Converter := narrowing doubleToBfloat16

/-- `conv_float_bfloat16` -/
def convFloatBfloat16 : Converter := narrowing floatToBfloat16

/-- `conv_bfloat16_double` -/
def convBfloat16Double : Converter := widening bfloat16ToDouble

/-- `conv_bfloat16_float` -/
def convBfloat16Float : Converter := widening bfloat16ToFloat

namespace TypePair

/-- The converter that `main` registers for the pair. -/
def registered : TypePair → Converter
  | widen .e4m3 => convF8e4m3Float
  | narrow .e4m3 => convFloatF8e4m3
  | widen .e5m2 => convF8e5m2Float
  | narrow .e5m2 => convFloatF8e5m2
  | widen .e3m2 => convF6e3m2Float
  | narrow .e3m2 => convFloatF6e3m2
  | widen .e2m1 => convF4e2m1Float
  | narrow .e2m1 => convFloatF4e2m1
  | doubleBfloat16 => convDoubleBfloat16
  | floatBfloat16 => convFloatBfloat16
  | bfloat16Double => convBfloat16Double
  | bfloat16Float => convBfloat16Float

/-- The destination type is the larger one. -/
def widens : TypePair → Bool
  | widen _ => true
  | narrow _ => false
  | doubleBfloat16 => false
  | floatBfloat16 => false
  | bfloat16Double => true
  | bfloat16Float => true

/-- The conversion of one element. -/
def conversion : TypePair → Conversion
  | widen format => toFloat format.widen
  | narrow format => fromFloat format.narrow
  | doubleBfloat16 => doubleToBfloat16
  | floatBfloat16 => floatToBfloat16
  | bfloat16Double => bfloat16ToDouble
  | bfloat16Float => bfloat16ToFloat

/-- The registered converter has one of two bodies. -/
theorem registered_eq (pair : TypePair) :
    pair.registered =
      if pair.widens then widening pair.conversion else narrowing pair.conversion := by
  cases pair with
  | widen format => cases format <;> rfl
  | narrow format => cases format <;> rfl
  | doubleBfloat16 => rfl
  | floatBfloat16 => rfl
  | bfloat16Double => rfl
  | bfloat16Float => rfl

theorem grows (pair : TypePair) (wider : pair.widens = true) :
    pair.conversion.srcSize ≤ pair.conversion.dstSize := by
  cases pair with
  | widen _ => exact (by decide : 1 ≤ 4)
  | bfloat16Double => exact (by decide : 2 ≤ 8)
  | bfloat16Float => exact (by decide : 2 ≤ 4)
  | narrow _ | doubleBfloat16 | floatBfloat16 => cases wider

theorem shrinks (pair : TypePair) (narrower : pair.widens = false) :
    pair.conversion.dstSize ≤ pair.conversion.srcSize := by
  cases pair with
  | narrow _ => exact (by decide : 1 ≤ 4)
  | doubleBfloat16 => exact (by decide : 2 ≤ 8)
  | floatBfloat16 => exact (by decide : 2 ≤ 4)
  | widen _ | bfloat16Double | bfloat16Float => cases narrower

end TypePair

/-- `H5Tconvert` with at most `calls` nested calls: a packed array, by the registered
converter. -/
def h5Tconvert : ℕ → Library
  | 0, _, _, _ => none
  | calls + 1, pair, nelmts, buf =>
      (pair.registered (h5Tconvert calls) pair ⟨.conv, .no⟩ nelmts 0 buf).map
        fun outcome => (outcome.status, outcome.buf)

end HandsOn.Hdf5
