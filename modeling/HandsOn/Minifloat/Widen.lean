import HandsOn.Minifloat.Magnitude
import Mathlib.Algebra.Order.Field.Basic
import Mathlib.Data.Rat.Cast.Order
import Mathlib.Tactic.FieldSimp
import Mathlib.Tactic.Positivity

/-!
# The widening tables

`build_widen_lut` decodes every code of a format to a `float`. All values are small enough
for a `float` to hold them exactly, so that they are rational numbers here. A `float` is
itself read as a code, with the fields of its own format.
-/

namespace HandsOn.Minifloat

/-- What a code stands for. -/
inductive Reading where
  | nan
  | infinite (negative : Bool)
  | finite (value : ℚ)
deriving DecidableEq

namespace Reading

/-- `-val` -/
def neg : Reading → Reading
  | nan => nan
  | infinite negative => infinite !negative
  | finite value => finite (-value)

/-- `val <= val'` -/
def le : Reading → Reading → Prop
  | finite value, finite value' => value ≤ value'
  | infinite true, finite _ => True
  | finite _, infinite false => True
  | infinite negative, infinite negative' => negative = true ∨ negative' = false
  | _, _ => False

end Reading

/-- `fpfmt_t` -/
structure Fpfmt where
  signBit : ℕ
  epos : ℕ
  esize : ℕ
  ebias : ℕ
  mpos : ℕ
  msize : ℕ
  prec : ℕ
  nanAllExpMax : Bool
deriving DecidableEq

/-- `ldexpf` -/
def ldexp (value : ℚ) (exponent : Int) : ℚ := value * 2 ^ exponent

/-- The body of the loop of `build_widen_lut`. -/
def widenEntry (f : Fpfmt) (code : ℕ) : Reading :=
  let expMax := (1 <<< f.esize) - 1
  let sign := (code >>> f.signBit) &&& 1
  let exp := (code >>> f.epos) &&& expMax
  let mant := (code >>> f.mpos) &&& ((1 <<< f.msize) - 1)
  let val :=
    if f.nanAllExpMax ∧ exp = expMax then Reading.nan
    else if ¬ f.nanAllExpMax ∧ exp = expMax then
      if mant = 0 then Reading.infinite false else Reading.nan
    else if exp = 0 then
      Reading.finite (ldexp ((mant : ℚ) / (1 <<< f.msize : ℕ)) (1 - (f.ebias : Int)))
    else
      Reading.finite (ldexp (1 + (mant : ℚ) / (1 <<< f.msize : ℕ)) ((exp : Int) - f.ebias))
  if sign = 0 then val else val.neg

/-- `build_widen_lut` -/
def buildWidenLut (nEntries : ℕ) (f : Fpfmt) : List Reading :=
  (List.range nEntries).map (widenEntry f)

/-- The fields of a `float`. -/
def binary32 : Fpfmt := ⟨31, 23, 8, 127, 0, 23, 32, false⟩

/-- The value of a `float`. -/
def floatValue (u : UInt32) : Reading := widenEntry binary32 u.toNat

namespace Fpfmt

variable (f : Fpfmt)

/-- The fields follow each other, the mantissa lowest. -/
structure Packed : Prop where
  mpos : f.mpos = 0
  epos : f.epos = f.msize
  signBit : f.signBit = f.msize + f.esize

/-- The smallest subnormal. -/
def unit : ℚ := 2 ^ (1 - (f.ebias : Int) - f.msize)

/-- What a code without its sign stands for. -/
def reading (code : ℕ) : Reading :=
  if code / 2 ^ f.msize = 2 ^ f.esize - 1 then
    if ¬ f.nanAllExpMax ∧ code % 2 ^ f.msize = 0 then .infinite false else .nan
  else
    .finite (magnitude f.msize code * f.unit)

theorem unit_pos : 0 < f.unit := zpow_pos (by norm_num) _

variable {f}

/-- The fields of a code with its sign. -/
theorem fields_eq (packed : f.Packed) (negative : Bool) {code : ℕ}
    (bounded : code < 2 ^ f.signBit) :
    let signed := negative.toNat * 2 ^ f.signBit + code
    (signed >>> f.signBit) &&& 1 = negative.toNat ∧
      (signed >>> f.epos) &&& ((1 <<< f.esize) - 1) = code / 2 ^ f.msize ∧
      (signed >>> f.mpos) &&& ((1 <<< f.msize) - 1) = code % 2 ^ f.msize := by
  intro signed
  have whole : 2 ^ f.signBit = 2 ^ f.esize * 2 ^ f.msize := by
    rw [packed.signBit, Nat.add_comm, Nat.pow_add]
  have split : signed = 2 ^ f.msize * (negative.toNat * 2 ^ f.esize) + code := by
    rw [Nat.mul_comm, Nat.mul_assoc, ← whole]
  have high : code / 2 ^ f.msize < 2 ^ f.esize :=
    Nat.div_lt_of_lt_mul (by rwa [Nat.mul_comm, ← whole])
  refine ⟨?_, ?_, ?_⟩
  · rw [Nat.shiftRight_eq_div_pow, exponent_eq bounded, Nat.and_one_is_mod]
    exact Nat.mod_eq_of_lt (Bool.toNat_lt negative)
  · rw [Nat.one_shiftLeft, Nat.and_two_pow_sub_one_eq_mod, packed.epos, Nat.shiftRight_eq_div_pow,
      split, Nat.mul_add_div (Nat.two_pow_pos _), mantissa_eq high]
  · rw [Nat.one_shiftLeft, Nat.and_two_pow_sub_one_eq_mod, packed.mpos, Nat.shiftRight_zero, split,
      Nat.mul_add_mod]

/-- A subnormal code decodes to its magnitude. -/
theorem ldexp_subnormal (mant : ℕ) :
    ldexp ((mant : ℚ) / (1 <<< f.msize : ℕ)) (1 - (f.ebias : Int)) = mant * f.unit := by
  rw [Nat.one_shiftLeft, ldexp, unit, zpow_sub₀ (by norm_num) _ (f.msize : Int), zpow_natCast]
  push_cast
  ring

/-- A normal code decodes to its magnitude. -/
theorem ldexp_normal (mant exp : ℕ) :
    ldexp (1 + (mant : ℚ) / (1 <<< f.msize : ℕ)) (((exp + 1 : ℕ) : Int) - f.ebias) =
      ((2 ^ f.msize + mant) * 2 ^ exp : ℕ) * f.unit := by
  have power : (((exp + 1 : ℕ) : Int) - f.ebias) = exp + (1 - (f.ebias : Int)) := by
    push_cast
    ring
  rw [Nat.one_shiftLeft, ldexp, unit, power, zpow_add₀ (by norm_num), zpow_natCast,
    zpow_sub₀ (by norm_num) _ (f.msize : Int), zpow_natCast]
  push_cast
  field_simp

/-- A table entry is what the code without its sign stands for, with the sign. -/
theorem widenEntry_eq (packed : f.Packed) (negative : Bool) {code : ℕ}
    (bounded : code < 2 ^ f.signBit) :
    widenEntry f (negative.toNat * 2 ^ f.signBit + code) =
      if negative then (f.reading code).neg else f.reading code := by
  obtain ⟨sign, exp, mant⟩ := fields_eq packed negative bounded
  have value : (if code / 2 ^ f.msize = 0 then
      Reading.finite (ldexp (((code % 2 ^ f.msize : ℕ) : ℚ) / (1 <<< f.msize : ℕ))
        (1 - (f.ebias : Int)))
      else Reading.finite (ldexp (1 + ((code % 2 ^ f.msize : ℕ) : ℚ) / (1 <<< f.msize : ℕ))
        (((code / 2 ^ f.msize : ℕ) : Int) - f.ebias))) =
      Reading.finite (magnitude f.msize code * f.unit) := by
    rw [magnitude]
    cases code / 2 ^ f.msize with
    | zero => rw [if_pos rfl, if_pos rfl, ldexp_subnormal]
    | succ exp => rw [if_neg exp.succ_ne_zero, if_neg exp.succ_ne_zero, ldexp_normal,
        Nat.add_sub_cancel]
  simp only [widenEntry, sign, exp, mant]
  rw [value, reading, Nat.one_shiftLeft]
  cases negative <;> cases f.nanAllExpMax <;> simp

end Fpfmt

end HandsOn.Minifloat
