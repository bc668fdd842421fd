import Mathlib.Algebra.Order.Round
import Mathlib.Tactic.Linarith
import Mathlib.Tactic.Ring

/-!
# Nearest members of a grid

A grid is a set of numbers to round to. `IsNearest` leaves the choice between two members
that are equally near, `IsNearestAway` takes the one farther from zero. The grids here are
the multiples of a step, and the values of an increasing sequence with both signs.
-/

namespace HandsOn.Numeric

universe u

variable {K : Type u} [Field K] [LinearOrder K]

/-- No member of `grid` is nearer to `x` than `y`. -/
structure IsNearest (grid : Set K) (x y : K) : Prop where
  mem : y ∈ grid
  le : ∀ z ∈ grid, |x - y| ≤ |x - z|

/-- Of the members of `grid` nearest to `x`, `y` is the farthest from zero. -/
structure IsNearestAway (grid : Set K) (x y : K) : Prop extends IsNearest grid x y where
  away : ∀ z ∈ grid, |x - z| = |x - y| → |z| ≤ |y|

/-- The multiples of `step`. -/
def multiples (step : K) : Set K := {z | ∃ k : ℤ, z = k * step}

/-- The values of a sequence, with both signs. -/
def signed (f : ℕ → K) : Set K := {z | ∃ n, |z| = f n}

/-- A grid with fewer members, the nearest one among them. -/
theorem IsNearest.subset {grid grid' : Set K} {x y : K} (nearest : IsNearest grid x y)
    (fewer : grid' ⊆ grid) (mem : y ∈ grid') : IsNearest grid' x y :=
  ⟨mem, fun z inside => nearest.le z (fewer inside)⟩

theorem IsNearestAway.subset {grid grid' : Set K} {x y : K} (nearest : IsNearestAway grid x y)
    (fewer : grid' ⊆ grid) (mem : y ∈ grid') : IsNearestAway grid' x y :=
  ⟨nearest.toIsNearest.subset fewer mem, fun z inside => nearest.away z (fewer inside)⟩

theorem neg_mem_signed {f : ℕ → K} {z : K} (mem : z ∈ signed f) : -z ∈ signed f := by
  obtain ⟨n, size⟩ := mem
  exact ⟨n, (abs_neg z).trans size⟩


theorem abs_neg_sub (x z : K) : |-x - z| = |x - -z| := by
  rw [← abs_neg (x - -z)]
  congr 1
  ring

/-- Rounding does not depend on the sign. -/
theorem IsNearest.neg {grid : Set K} (symmetric : ∀ z ∈ grid, -z ∈ grid) {x y : K}
    (nearest : IsNearest grid x y) : IsNearest grid (-x) (-y) := by
  refine ⟨symmetric y nearest.mem, fun z mem => ?_⟩
  rw [abs_neg_sub, abs_neg_sub, neg_neg]
  exact nearest.le _ (symmetric z mem)

theorem IsNearestAway.neg {grid : Set K} (symmetric : ∀ z ∈ grid, -z ∈ grid) {x y : K}
    (nearest : IsNearestAway grid x y) : IsNearestAway grid (-x) (-y) := by
  refine ⟨nearest.toIsNearest.neg symmetric, fun z mem tie => ?_⟩
  rw [abs_neg_sub, abs_neg_sub, neg_neg] at tie
  rw [abs_neg, ← abs_neg z]
  exact nearest.away _ (symmetric z mem) tie

variable [IsStrictOrderedRing K]

section Neighbours

variable {f : ℕ → K} (increasing : StrictMono f) (zero : f 0 = 0) {x : K} {n : ℕ} (low : f n ≤ x)
include increasing zero low

/-- The members of the grid are not between the two neighbours of a number. -/
theorem far_of_mem_signed {z : K} (mem : z ∈ signed f) :
    |z| ≤ f n ∧ x - f n ≤ |x - z| ∨
      f (n + 1) - x + (|z| - f (n + 1)) ≤ |x - z| ∧ f (n + 1) ≤ |z| := by
  obtain ⟨m, size⟩ := mem
  have below := le_abs_self z
  have distance := le_abs_self (x - z)
  rcases Nat.lt_or_ge n m with above | within
  · have least : f (n + 1) ≤ |z| := size ▸ increasing.monotone above
    have nonneg : 0 ≤ x := (zero.symm.trans_le (increasing.monotone (Nat.zero_le n))).trans low
    have other := abs_sub_abs_le_abs_sub z x
    rw [abs_of_nonneg nonneg, abs_sub_comm] at other
    exact .inr ⟨by linarith, least⟩
  · have most : |z| ≤ f n := size ▸ increasing.monotone within
    exact .inl ⟨most, by linarith⟩

/-- The nearer neighbour is the nearest member, the upper one if they are equally near. -/
theorem isNearestAway_of_neighbours (high : x < f (n + 1)) :
    IsNearestAway (signed f) x (if x - f n < f (n + 1) - x then f n else f (n + 1)) := by
  have nonneg : ∀ m, 0 ≤ f m := fun m => zero.symm.trans_le (increasing.monotone (Nat.zero_le m))
  split
  · rename_i nearer
    have distance : |x - f n| = x - f n := abs_of_nonneg (sub_nonneg.mpr low)
    refine ⟨⟨⟨n, abs_of_nonneg (nonneg n)⟩, fun z mem => ?_⟩, fun z mem tie => ?_⟩
    · rw [distance]
      rcases far_of_mem_signed increasing zero low mem with ⟨_, far⟩ | ⟨far, least⟩ <;> linarith
    · rw [abs_of_nonneg (nonneg n)]
      rcases far_of_mem_signed increasing zero low mem with ⟨most, _⟩ | ⟨far, least⟩
      · exact most
      · linarith
  · rename_i farther
    have distance : |x - f (n + 1)| = f (n + 1) - x := by
      rw [abs_sub_comm]
      exact abs_of_nonneg (sub_nonneg.mpr high.le)
    refine ⟨⟨⟨n + 1, abs_of_nonneg (nonneg _)⟩, fun z mem => ?_⟩, fun z mem tie => ?_⟩
    · rw [distance]
      rcases far_of_mem_signed increasing zero low mem with ⟨_, far⟩ | ⟨far, least⟩ <;> linarith
    · rw [abs_of_nonneg (nonneg _)]
      rcases far_of_mem_signed increasing zero low mem with ⟨most, _⟩ | ⟨far, least⟩
      · exact most.trans (increasing (Nat.lt_succ_self n)).le
      · linarith

omit low in
/-- Between the midpoints to its neighbours a number is nearest to the member. -/
theorem isNearest_of_midpoints (nonneg : 0 ≤ x) (below : ∀ m < n, f m + f (m + 1) ≤ 2 * x)
    (above : 2 * x ≤ f n + f (n + 1)) : IsNearest (signed f) x (f n) := by
  have sizes : ∀ m, 0 ≤ f m := fun m => zero.symm.trans_le (increasing.monotone (Nat.zero_le m))
  refine ⟨⟨n, abs_of_nonneg (sizes n)⟩, ?_⟩
  rintro z ⟨m, size⟩
  have sameSign : |x - f m| ≤ |x - z| := by
    have apart := abs_abs_sub_abs_le_abs_sub x z
    rwa [abs_of_nonneg nonneg, size] at apart
  refine le_trans ?_ sameSign
  rcases Nat.lt_trichotomy m n with less | rfl | more
  · have near := below (n - 1) (by omega)
    rw [Nat.sub_add_cancel (Nat.one_le_of_lt less)] at near
    have lower : f m ≤ f (n - 1) := increasing.monotone (by omega)
    have apart := le_abs_self (x - f m)
    have order := increasing less
    exact abs_le.mpr ⟨by linarith, by linarith⟩
  · exact le_refl _
  · have upper : f (n + 1) ≤ f m := increasing.monotone more
    have apart := neg_abs_le (x - f m)
    have order := increasing more
    exact abs_le.mpr ⟨by linarith, by linarith⟩

end Neighbours

/-- Rounding the quotient finds the nearest multiple. -/
theorem isNearestAway_round [FloorRing K] {x step : K} (nonneg : 0 ≤ x) (positive : 0 < step) :
    IsNearestAway (multiples step) x (round (x / step) * step) := by
  have scaled : ∀ k : ℤ, |x - k * step| = |x / step - k| * step := by
    intro k
    rw [← abs_of_pos positive, ← abs_mul, abs_of_pos positive, sub_mul,
      div_mul_cancel₀ x positive.ne']
  refine ⟨⟨⟨_, rfl⟩, ?_⟩, ?_⟩
  · rintro _ ⟨k, rfl⟩
    rw [scaled, scaled]
    exact mul_le_mul_of_nonneg_right (round_le _ k) positive.le
  · rintro _ ⟨k, rfl⟩ tie
    rw [scaled, scaled] at tie
    have same := mul_right_cancel₀ positive.ne' tie
    have quotient : 0 ≤ x / step := div_nonneg nonneg positive.le
    rw [abs_mul, abs_mul]
    refine mul_le_mul_of_nonneg_right ?_ (abs_nonneg step)
    rw [← Int.cast_abs, ← Int.cast_abs, Int.cast_le]
    generalize x / step = t at same quotient
    have lower : t - 1 / 2 < round t := by
      rw [round_eq]
      linarith [Int.lt_floor_add_one (t + 1 / 2)]
    have positive : 0 ≤ round t := by
      rw [round_eq]
      exact Int.floor_nonneg.mpr (by linarith)
    rw [abs_of_nonneg positive]
    rcases abs_eq_abs.mp same with near | mirrored
    · have equal : k = round t := by exact_mod_cast (sub_right_inj.mp near)
      rw [equal, abs_of_nonneg positive]
    · refine abs_le.mpr ⟨?_, ?_⟩
      · have : (-(round t : K)) ≤ k := by linarith
        exact_mod_cast this
      · rw [round_eq]
        exact Int.le_floor.mpr (by linarith)

end HandsOn.Numeric
