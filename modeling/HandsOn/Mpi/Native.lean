import Mathlib.Data.Nat.Notation
import Mathlib.Tactic.Linarith
import Mathlib.Tactic.TypeStar

/-!
# Native representation of values

The bytes in which a machine holds a value in memory and, under MPI's `native` data
representation, in a file. Every property of a program's files here holds for any such
representation; the little-endian one makes examples computable.
-/

namespace HandsOn.Mpi

universe u

/-- A representation of the values of a type in `size` bytes, without unused bits. -/
structure Native (Value : Type u) (size : ℕ) where
  encode : Value → List UInt8
  decode : List UInt8 → Value
  length_encode : ∀ value, (encode value).length = size
  decode_encode : ∀ value, decode (encode value) = value
  encode_decode : ∀ bytes, bytes.length = size → encode (decode bytes) = bytes

namespace Native

variable {Value : Type u} {size : ℕ} (layout : Native Value size)

attribute [simp] length_encode decode_encode

theorem encode_injective {first second : Value}
    (same : layout.encode first = layout.encode second) :
    first = second := by
  rw [← layout.decode_encode first, same, layout.decode_encode]

/-- The values of consecutive elements. -/
def encodeAll (values : List Value) : List UInt8 := values.flatMap layout.encode

@[simp] theorem encodeAll_append (before after : List Value) :
    layout.encodeAll (before ++ after) = layout.encodeAll before ++ layout.encodeAll after :=
  List.flatMap_append

@[simp] theorem length_encodeAll (values : List Value) :
    (layout.encodeAll values).length = values.length * size := by
  induction values with
  | nil => simp [encodeAll]
  | cons value rest ih =>
      rw [encodeAll, List.flatMap_cons, List.length_append, layout.length_encode,
        List.length_cons, Nat.succ_mul, Nat.add_comm, ← encodeAll, ih]

/-- Split bytes into elements. -/
def decodeAll : ℕ → List UInt8 → List Value
  | 0, _ => []
  | count + 1, bytes => layout.decode (bytes.take size) :: decodeAll count (bytes.drop size)

end Native

/-! ### Little-endian words -/

/-- The `size` low bytes of a number, lowest first. -/
def toBytes : ℕ → ℕ → List UInt8
  | 0, _ => []
  | size + 1, number => UInt8.ofNat number :: toBytes size (number / 256)

/-- The number whose bytes, lowest first, are given. -/
def ofBytes : List UInt8 → ℕ
  | [] => 0
  | byte :: rest => byte.toNat + 256 * ofBytes rest

theorem length_toBytes (size number : ℕ) : (toBytes size number).length = size := by
  induction size generalizing number with
  | zero => rfl
  | succ size ih => rw [toBytes, List.length_cons, ih]

theorem ofBytes_toBytes {size number : ℕ} (small : number < 256 ^ size) :
    ofBytes (toBytes size number) = number := by
  induction size generalizing number with
  | zero => exact (Nat.lt_one_iff.mp small).symm
  | succ size ih =>
      rw [toBytes, ofBytes, ih (Nat.div_lt_of_lt_mul (by rwa [Nat.pow_succ'] at small)),
        UInt8.toNat_ofNat']
      exact Nat.mod_add_div number 256

theorem toBytes_ofBytes (bytes : List UInt8) : toBytes bytes.length (ofBytes bytes) = bytes := by
  induction bytes with
  | nil => rfl
  | cons byte rest ih =>
      have below : byte.toNat < 256 := byte.toNat_lt
      have high : (byte.toNat + 256 * ofBytes rest) / 256 = ofBytes rest := by omega
      have low : UInt8.ofNat (byte.toNat + 256 * ofBytes rest) = byte := by
        apply UInt8.toNat_inj.mp
        rw [UInt8.toNat_ofNat']
        omega
      rw [List.length_cons, ofBytes, toBytes, high, low, ih]

theorem ofBytes_lt (bytes : List UInt8) : ofBytes bytes < 256 ^ bytes.length := by
  induction bytes with
  | nil => exact Nat.one_pos
  | cons byte rest ih =>
      have below : byte.toNat < 256 := byte.toNat_lt
      rw [ofBytes, List.length_cons, Nat.pow_succ]
      omega

/-- A little-endian `int`. -/
def littleEndianInt : Native Int32 4 where
  encode value := toBytes 4 value.toUInt32.toNat
  decode bytes := (UInt32.ofNat (ofBytes bytes)).toInt32
  length_encode value := length_toBytes 4 _
  decode_encode value := by
    rw [ofBytes_toBytes value.toUInt32.toNat_lt, UInt32.ofNat_toNat]
    rfl
  encode_decode bytes sized := by
    have small := ofBytes_lt bytes
    rw [sized] at small
    have whole : (UInt32.ofNat (ofBytes bytes)).toNat = ofBytes bytes :=
      UInt32.toNat_ofNat_of_lt' small
    rw [UInt32.toUInt32_toInt32, whole, ← sized, toBytes_ofBytes]

/-- Little-endian words of eight bytes, such as the bit patterns of a `double`. -/
def littleEndianWord : Native UInt64 8 where
  encode value := toBytes 8 value.toNat
  decode bytes := UInt64.ofNat (ofBytes bytes)
  length_encode value := length_toBytes 8 _
  decode_encode value := by rw [ofBytes_toBytes value.toNat_lt, UInt64.ofNat_toNat]
  encode_decode bytes sized := by
    have small := ofBytes_lt bytes
    rw [sized] at small
    have whole : (UInt64.ofNat (ofBytes bytes)).toNat = ofBytes bytes :=
      UInt64.toNat_ofNat_of_lt' small
    rw [whole, ← sized, toBytes_ofBytes]

/-- A little-endian `MPI_Aint` of eight bytes. -/
def littleEndianAint : Native Int64 8 where
  encode value := littleEndianWord.encode value.toUInt64
  decode bytes := (littleEndianWord.decode bytes).toInt64
  length_encode value := littleEndianWord.length_encode _
  decode_encode value := by
    rw [littleEndianWord.decode_encode]
    rfl
  encode_decode bytes sized := by
    rw [UInt64.toUInt64_toInt64, littleEndianWord.encode_decode bytes sized]

/-! ### Sizes in C -/

/-- An `int` wraps around. -/
theorem toInt_ofNat (number : ℕ) : (Int32.ofNat number).toInt = (number : Int).bmod (2 ^ 32) :=
  Int32.toInt_ofNat'

/-- An `int` sum that overflows. -/
theorem toInt_ofNat_overflow {sum : ℕ} (past : 2 ^ 31 ≤ sum) (within : sum ≤ 2 ^ 32) :
    (Int32.ofNat sum).toInt = sum - 2 ^ 32 := by
  rw [toInt_ofNat, Int.bmod_def]
  split <;> omega

theorem toInt_ofNat_le (number : ℕ) : (Int32.ofNat number).toInt ≤ number := by
  rw [toInt_ofNat, Int.bmod_def]
  split <;> omega

theorem toInt_ofNat_nonneg_iff (number : ℕ) :
    0 ≤ (Int32.ofNat number).toInt ↔ number % 2 ^ 32 < 2 ^ 31 := by
  rw [toInt_ofNat, Int.bmod_def]
  split <;> omega

/-- `count * sizeof(T)` for an `int` count. -/
def byteOffset (count : Int32) (size : ℕ) : Int := (count.toInt64 * Int64.ofNat size).toInt

theorem byteOffset_eq (count : Int32) {size : ℕ} (small : size < 2 ^ 32) :
    byteOffset count size = count.toInt * size := by
  have low := count.le_toInt
  have high := count.toInt_lt
  have upper : count.toInt * size ≤ 2 ^ 31 * 2 ^ 32 - 1 := by nlinarith
  have lower : -(2 ^ 31 * 2 ^ 32) ≤ count.toInt * size := by nlinarith
  rw [byteOffset, Int64.toInt_mul, Int32.toInt_toInt64,
    Int64.toInt_ofNat_of_lt (small.trans (by decide))]
  exact Int.bmod_eq_of_le (by omega) (by omega)

end HandsOn.Mpi
