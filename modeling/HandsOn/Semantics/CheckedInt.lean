import Mathlib.Algebra.Order.Ring.Int
import Mathlib.Data.Nat.Cast.Order.Basic

/-!
# `int` arithmetic without overflow

A result that no `int` has, or a division by zero, is undefined in C. The operations return
`none` there, so that a computation that returns a value has not overflowed anywhere.
-/

namespace HandsOn.Semantics.CheckedInt

/-- The `int` of some value, if there is one. -/
def ofInt? (value : Int) : Option Int32 :=
  if -2 ^ 31 ≤ value ∧ value < 2 ^ 31 then some (Int32.ofInt value) else none

def add? (left right : Int32) : Option Int32 := ofInt? (left.toInt + right.toInt)

def sub? (left right : Int32) : Option Int32 := ofInt? (left.toInt - right.toInt)

def mul? (left right : Int32) : Option Int32 := ofInt? (left.toInt * right.toInt)

/-- `left / right`, which is undefined for the smallest `int` and -1 as well. -/
def div? (left right : Int32) : Option Int32 :=
  if right = 0 then none else ofInt? (left.toInt.tdiv right.toInt)

/-- `left % right`, which is undefined where the quotient is. -/
def rem? (left right : Int32) : Option Int32 :=
  (div? left right).bind fun _ => ofInt? (left.toInt.tmod right.toInt)

theorem ofInt?_eq_some {value : Int} {result : Int32} :
    ofInt? value = some result ↔ result.toInt = value := by
  constructor
  · intro fits
    obtain ⟨⟨low, high⟩, same⟩ := Option.ite_none_right_eq_some.mp fits
    rw [← Option.some.inj same, Int32.toInt_ofInt_of_le low high]
  · rintro rfl
    rw [ofInt?, if_pos ⟨result.le_toInt, result.toInt_lt⟩, Int32.ofInt_toInt]

/-! ### Natural numbers -/

/-- Every `int` from zero on is a natural number. -/
theorem exists_ofNat {number : Int32} (nonneg : 0 ≤ number) :
    ∃ n < 2 ^ 31, number = Int32.ofNat n := by
  have low := Int32.le_iff_toInt_le.mp nonneg
  have high := number.toInt_lt
  rw [Int32.toInt_zero] at low
  refine ⟨number.toInt.toNat, by omega, ?_⟩
  rw [← Int32.toInt_inj, Int32.toInt_ofNat_of_lt (by omega), Int.toNat_of_nonneg low]

/-- Those from one on are positive. -/
theorem exists_ofNat_pos {number : Int32} (positive : 1 ≤ number) :
    ∃ n < 2 ^ 31, number = Int32.ofNat n ∧ 0 < n := by
  have low := Int32.le_iff_toInt_le.mp positive
  rw [Int32.toInt_one] at low
  have nonneg : 0 ≤ number := by
    rw [Int32.le_iff_toInt_le, Int32.toInt_zero]
    omega
  obtain ⟨n, small, same⟩ := exists_ofNat nonneg
  rw [same, Int32.toInt_ofNat_of_lt small] at low
  exact ⟨n, small, same, by omega⟩

theorem toInt_ofNat {n : ℕ} (small : n < 2 ^ 31) : (Int32.ofNat n).toInt = n :=
  Int32.toInt_ofNat_of_lt small

theorem ofInt?_natCast {n : ℕ} (small : n < 2 ^ 31) : ofInt? n = some (Int32.ofNat n) :=
  ofInt?_eq_some.mpr (toInt_ofNat small)

theorem ofNat_lt_iff {m n : ℕ} (small : m < 2 ^ 31) (small' : n < 2 ^ 31) :
    Int32.ofNat m < Int32.ofNat n ↔ m < n := by
  rw [Int32.lt_iff_toInt_lt, toInt_ofNat small, toInt_ofNat small', Nat.cast_lt]

theorem ofNat_inj {m n : ℕ} (small : m < 2 ^ 31) (small' : n < 2 ^ 31) :
    Int32.ofNat m = Int32.ofNat n ↔ m = n := by
  rw [← Int32.toInt_inj, toInt_ofNat small, toInt_ofNat small', Nat.cast_inj]

/-- What holds of all numbers below a natural number. -/
theorem forall_lt_ofNat {n : ℕ} (small : n < 2 ^ 31) {P : Int32 → Prop} :
    (∀ number, 0 ≤ number → number < Int32.ofNat n → P number) ↔ ∀ m < n, P (Int32.ofNat m) := by
  constructor
  · intro all m below
    have small' := below.trans small
    refine all _ ?_ ((ofNat_lt_iff small' small).mpr below)
    rw [Int32.le_iff_toInt_le, toInt_ofNat small', Int32.toInt_zero]
    exact Int.natCast_nonneg m
  · intro all number low high
    obtain ⟨m, small', rfl⟩ := exists_ofNat low
    exact all m ((ofNat_lt_iff small' small).mp high)

theorem ofNat_nonneg {n : ℕ} (small : n < 2 ^ 31) : 0 ≤ Int32.ofNat n := by
  rw [Int32.le_iff_toInt_le, toInt_ofNat small, Int32.toInt_zero]
  exact Int.natCast_nonneg n

section

variable {m n : ℕ}

theorem add?_ofNat (small : m + n < 2 ^ 31) :
    add? (Int32.ofNat m) (Int32.ofNat n) = some (Int32.ofNat (m + n)) := by
  rw [add?, toInt_ofNat (by omega), toInt_ofNat (by omega), ← Nat.cast_add, ofInt?_natCast small]

theorem sub?_ofNat (ordered : n ≤ m) (small : m < 2 ^ 31) :
    sub? (Int32.ofNat m) (Int32.ofNat n) = some (Int32.ofNat (m - n)) := by
  rw [sub?, toInt_ofNat small, toInt_ofNat (by omega), ← Nat.cast_sub ordered,
    ofInt?_natCast (by omega)]

theorem mul?_ofNat (small : m < 2 ^ 31) (small' : n < 2 ^ 31) (product : m * n < 2 ^ 31) :
    mul? (Int32.ofNat m) (Int32.ofNat n) = some (Int32.ofNat (m * n)) := by
  rw [mul?, toInt_ofNat small, toInt_ofNat small', ← Nat.cast_mul, ofInt?_natCast product]

theorem mul?_ofNat_eq_none (small : m < 2 ^ 31) (small' : n < 2 ^ 31) (past : 2 ^ 31 ≤ m * n) :
    mul? (Int32.ofNat m) (Int32.ofNat n) = none := by
  rw [mul?, toInt_ofNat small, toInt_ofNat small', ← Nat.cast_mul]
  refine if_neg fun fits => ?_
  have below := fits.2
  omega

theorem div?_ofNat (small : m < 2 ^ 31) (small' : n < 2 ^ 31) (positive : 0 < n) :
    div? (Int32.ofNat m) (Int32.ofNat n) = some (Int32.ofNat (m / n)) := by
  have nonzero : Int32.ofNat n ≠ 0 :=
    (ofNat_inj small' (by decide : 0 < 2 ^ 31)).not.mpr positive.ne'
  have quotient : m / n < 2 ^ 31 := (Nat.div_le_self m n).trans_lt small
  rw [div?, if_neg nonzero, toInt_ofNat small, toInt_ofNat small', ← Int.ofNat_tdiv,
    ofInt?_natCast quotient]

theorem rem?_ofNat (small : m < 2 ^ 31) (small' : n < 2 ^ 31) (positive : 0 < n) :
    rem? (Int32.ofNat m) (Int32.ofNat n) = some (Int32.ofNat (m % n)) := by
  have remainder : m % n < 2 ^ 31 := (Nat.mod_le m n).trans_lt small
  rw [rem?, div?_ofNat small small' positive, Option.bind_some, toInt_ofNat small,
    toInt_ofNat small', ← Int.ofNat_tmod, ofInt?_natCast remainder]

end

end HandsOn.Semantics.CheckedInt
