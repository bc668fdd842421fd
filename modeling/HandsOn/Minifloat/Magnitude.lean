import Mathlib.Algebra.Order.Monoid.NatCast
import Mathlib.Order.Monotone.Basic
import Mathlib.Tactic.Ring

/-!
# Magnitudes of binary floating-point numbers

A code without its sign is an exponent field above a mantissa field. Its magnitude is a
natural number of the format's smallest subnormal: the mantissa itself below the first
normal number, and the mantissa with its hidden bit, scaled, from there on.
-/

namespace HandsOn.Minifloat

/-- The magnitude of a code with a mantissa of `msize` bits, in smallest subnormals. -/
def magnitude (msize code : ℕ) : ℕ :=
  if code / 2 ^ msize = 0 then code % 2 ^ msize
  else (2 ^ msize + code % 2 ^ msize) * 2 ^ (code / 2 ^ msize - 1)

section Fields

variable {msize exponent mantissa : ℕ} (bounded : mantissa < 2 ^ msize)
include bounded

theorem exponent_eq : (exponent * 2 ^ msize + mantissa) / 2 ^ msize = exponent := by
  rw [Nat.mul_comm, Nat.mul_add_div (Nat.two_pow_pos msize), Nat.div_eq_of_lt bounded, Nat.add_zero]

theorem mantissa_eq : (exponent * 2 ^ msize + mantissa) % 2 ^ msize = mantissa := by
  rw [Nat.mul_comm, Nat.mul_add_mod, Nat.mod_eq_of_lt bounded]

/-- A subnormal number is its mantissa. -/
theorem magnitude_subnormal : magnitude msize mantissa = mantissa := by
  rw [magnitude, if_pos (Nat.div_eq_of_lt bounded), Nat.mod_eq_of_lt bounded]

/-- A normal number has a hidden bit. -/
theorem magnitude_normal :
    magnitude msize ((exponent + 1) * 2 ^ msize + mantissa) =
      (2 ^ msize + mantissa) * 2 ^ exponent := by
  rw [magnitude, exponent_eq bounded, mantissa_eq bounded, if_neg (Nat.succ_ne_zero exponent),
    Nat.add_sub_cancel]

end Fields

/-- A code is its two fields. -/
theorem exists_fields (msize code : ℕ) :
    ∃ exponent mantissa, mantissa < 2 ^ msize ∧ code = exponent * 2 ^ msize + mantissa :=
  ⟨code / 2 ^ msize, code % 2 ^ msize, Nat.mod_lt _ (Nat.two_pow_pos msize),
    (Nat.div_add_mod' code (2 ^ msize)).symm⟩

/-- A mantissa that has been rounded up to the next power of two carries into the exponent. -/
theorem magnitude_carry {msize exponent mantissa : ℕ} (bounded : mantissa ≤ 2 ^ msize) :
    magnitude msize ((exponent + 1) * 2 ^ msize + mantissa) =
      (2 ^ msize + mantissa) * 2 ^ exponent := by
  rcases Nat.lt_or_eq_of_le bounded with within | rfl
  · exact magnitude_normal within
  · have next : (exponent + 1) * 2 ^ msize + 2 ^ msize = (exponent + 1 + 1) * 2 ^ msize + 0 := by
      ring
    rw [next, magnitude_normal (Nat.two_pow_pos msize)]
    ring

/-- Within an exponent, up to the first number of the next one, magnitudes are evenly spaced. -/
theorem exists_spacing (msize exponent : ℕ) :
    ∃ base spacing, ∀ mantissa ≤ 2 ^ msize,
      magnitude msize (exponent * 2 ^ msize + mantissa) = base + mantissa * spacing := by
  cases exponent with
  | zero =>
      refine ⟨0, 1, fun mantissa bounded => ?_⟩
      rw [Nat.zero_mul, Nat.zero_add, Nat.zero_add, Nat.mul_one]
      rcases Nat.lt_or_eq_of_le bounded with within | rfl
      · exact magnitude_subnormal within
      · have first := @magnitude_normal msize 0 0 (Nat.two_pow_pos msize)
        rwa [Nat.zero_add, Nat.one_mul, Nat.add_zero, Nat.pow_zero, Nat.mul_one] at first
  | succ exponent =>
      refine ⟨2 ^ msize * 2 ^ exponent, 2 ^ exponent, fun mantissa bounded => ?_⟩
      rw [magnitude_carry bounded, Nat.add_mul]

/-- The next code has a larger magnitude, also across a change of the exponent. -/
theorem magnitude_lt_succ (msize code : ℕ) : magnitude msize code < magnitude msize (code + 1) := by
  obtain ⟨exponent, mantissa, bounded, rfl⟩ := exists_fields msize code
  rcases Nat.lt_or_ge (mantissa + 1) (2 ^ msize) with within | last
  · rw [Nat.add_assoc]
    cases exponent with
    | zero =>
        rw [Nat.zero_mul, Nat.zero_add, Nat.zero_add, magnitude_subnormal bounded,
          magnitude_subnormal within]
        exact Nat.lt_succ_self mantissa
    | succ exponent =>
        rw [magnitude_normal bounded, magnitude_normal within]
        exact Nat.mul_lt_mul_of_pos_right (Nat.lt_succ_self _) (Nat.two_pow_pos exponent)
  · have full : mantissa + 1 = 2 ^ msize := by omega
    have next : exponent * 2 ^ msize + mantissa + 1 = (exponent + 1) * 2 ^ msize + 0 := by
      rw [Nat.add_assoc, full, Nat.succ_mul, Nat.add_zero]
    rw [next, magnitude_normal (Nat.two_pow_pos msize), Nat.add_zero]
    cases exponent with
    | zero =>
        rw [Nat.zero_mul, Nat.zero_add, magnitude_subnormal bounded, Nat.pow_zero, Nat.mul_one]
        exact bounded
    | succ exponent =>
        rw [magnitude_normal bounded, Nat.pow_succ, ← Nat.mul_assoc, Nat.mul_right_comm]
        exact Nat.mul_lt_mul_of_pos_right (by omega) (Nat.two_pow_pos exponent)

/-- Codes are ordered as their magnitudes are. -/
theorem magnitude_strictMono (msize : ℕ) : StrictMono (magnitude msize) :=
  strictMono_nat_of_lt_succ (magnitude_lt_succ msize)

end HandsOn.Minifloat
