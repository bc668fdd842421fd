import Mathlib.Algebra.Order.Ring.Nat
import Mathlib.Data.List.Nodup
import Mathlib.Data.List.Perm.Basic
import Mathlib.Tactic.Ring

/-!
# The numbers of the directories

The directories of a tree are numbered level by level: the root is 0 and the first child of `p`
is `b * p + 1`. The recursions of the program visit them in preorder, one level less with each
call.
-/

namespace HandsOn.Mdtest

/-- The first directory some levels below another. -/
def first (b : ℕ) : ℕ → ℕ → ℕ
  | 0, p => p
  | k + 1, p => first b k (b * p + 1)

/-- A directory is `k` levels below `p`. -/
def Level (b p k d : ℕ) : Prop := first b k p ≤ d ∧ d < first b k p + b ^ k

variable {b p k d : ℕ}

theorem first_add (b k p i : ℕ) : first b k (p + i) = first b k p + i * b ^ k := by
  induction k generalizing p i with
  | zero => simp [first]
  | succ k ih =>
      have shifted : b * (p + i) + 1 = b * p + 1 + b * i := by ring
      rw [first, first, shifted, ih, pow_succ']
      ring

theorem first_succ (b k p : ℕ) : first b (k + 1) p = b * first b k p + 1 := by
  induction k generalizing p with
  | zero => rfl
  | succ k ih => rw [first, ih, ← first]

/-- Below the root the levels follow each other. -/
theorem first_zero_succ (b k : ℕ) : first b (k + 1) 0 = first b k 0 + b ^ k := by
  rw [first, Nat.mul_zero, Nat.zero_add]
  have next := first_add b k 0 1
  rwa [Nat.zero_add, Nat.one_mul] at next

/-- The directories of a level are the children of those of the level above. -/
theorem level_succ : Level b p (k + 1) d ↔ ∃ i < b, Level b (b * p + 1 + i) k d := by
  rw [Level, first]
  constructor
  · rintro ⟨above, below⟩
    have positive : 0 < b ^ k := by
      rcases Nat.eq_zero_or_pos (b ^ k) with zero | positive
      · rw [pow_succ, zero, Nat.zero_mul] at below
        omega
      · exact positive
    refine ⟨(d - first b k (b * p + 1)) / b ^ k, ?_, ?_, ?_⟩
    · apply Nat.div_lt_of_lt_mul
      rw [← pow_succ]
      omega
    · have := Nat.div_mul_le_self (d - first b k (b * p + 1)) (b ^ k)
      rw [first_add]
      omega
    · have := Nat.lt_div_mul_add positive (a := d - first b k (b * p + 1))
      rw [first_add]
      omega
  · rintro ⟨i, below, lower, upper⟩
    rw [first_add] at lower upper
    have room : i * b ^ k + b ^ k ≤ b ^ (k + 1) := by
      rw [← Nat.succ_mul, pow_succ']
      exact Nat.mul_le_mul_right _ below
    omega

/-- A directory is a child of one directory. -/
theorem level_child_unique {i j : ℕ} (here : Level b (p + i) k d) (there : Level b (p + j) k d) :
    i = j := by
  rw [Level, first_add] at here there
  by_contra different
  rcases Nat.lt_or_gt_of_ne different with less | greater
  · have := Nat.mul_le_mul_right (b ^ k) (Nat.succ_le_of_lt less)
    rw [Nat.succ_mul] at this
    omega
  · have := Nat.mul_le_mul_right (b ^ k) (Nat.succ_le_of_lt greater)
    rw [Nat.succ_mul] at this
    omega

/-- The levels below a directory are apart. -/
theorem level_end_le (positive : 0 < b) (p k : ℕ) : first b k p + b ^ k ≤ first b (k + 1) p := by
  have scaled : first b k p = first b k 0 + p * b ^ k := by
    have := first_add b k 0 p
    rwa [Nat.zero_add] at this
  have scaled' : first b (k + 1) p = first b (k + 1) 0 + p * b ^ (k + 1) := by
    have := first_add b (k + 1) 0 p
    rwa [Nat.zero_add] at this
  have wider : p * b ^ k ≤ p * b ^ (k + 1) :=
    Nat.mul_le_mul_left _ (Nat.pow_le_pow_right positive (Nat.le_succ k))
  rw [scaled, scaled', first_zero_succ]
  omega

theorem first_mono (positive : 0 < b) (p : ℕ) {k k' : ℕ} (less : k < k') :
    first b k p + b ^ k ≤ first b k' p := by
  induction less with
  | refl => exact level_end_le positive p k
  | @step m _ ih => exact ih.trans ((Nat.le_add_right _ _).trans (level_end_le positive p m))

/-- A directory is on one level. -/
theorem level_unique (positive : 0 < b) {k' : ℕ} (here : Level b p k d) (there : Level b p k' d) :
    k = k' := by
  by_contra different
  rcases Nat.lt_or_gt_of_ne different with less | greater
  · have := first_mono positive p less
    rw [Level] at here there
    omega
  · have := first_mono positive p greater
    rw [Level] at here there
    omega

/-- Every directory of a tree is on some level. -/
theorem exists_level {depth : ℕ} (inside : d < first b (depth + 1) 0) :
    ∃ k ≤ depth, Level b 0 k d := by
  induction depth with
  | zero =>
      refine ⟨0, Nat.le_refl _, Nat.zero_le _, ?_⟩
      rwa [first_zero_succ] at inside
  | succ depth ih =>
      rcases Nat.lt_or_ge d (first b (depth + 1) 0) with earlier | later
      · obtain ⟨k, above, level⟩ := ih earlier
        exact ⟨k, above.trans (Nat.le_succ _), level⟩
      · rw [first_zero_succ] at inside
        exact ⟨depth + 1, Nat.le_refl _, later, inside⟩

/-- A directory on a level of a tree is in the tree. -/
theorem Level.lt (level : Level b 0 k d) {depth : ℕ} (positive : 0 < b) (above : k ≤ depth) :
    d < first b (depth + 1) 0 :=
  Nat.lt_of_lt_of_le level.2 (first_mono positive 0 (Nat.lt_succ_of_le above))

/-! ### Preorder -/

/-- The directories below one whose first child is `dirNum`, in preorder with the children in
some order; with `leafOnly` those of the last level. -/
def preorder (b : ℕ) (order : List ℕ) (leafOnly : Bool) : ℕ → ℕ → List ℕ
  | 0, _ => []
  | levels + 1, dirNum => order.flatMap fun i =>
      (if leafOnly && levels ≠ 0 then [] else [dirNum + i]) ++
        preorder b order leafOnly levels (b * (dirNum + i) + 1)

variable {order : List ℕ} {leafOnly : Bool} {levels : ℕ}

/-- What a visit of the subtrees visits. -/
theorem mem_preorder (all : order.Perm (List.range b)) :
    d ∈ preorder b order leafOnly levels (b * p + 1) ↔
      ∃ k < levels, Level b p (k + 1) d ∧ (leafOnly = true → k + 1 = levels) := by
  induction levels generalizing p with
  | zero => simp [preorder]
  | succ levels ih =>
      simp only [preorder, List.mem_flatMap, List.mem_append, ih, all.mem_iff, List.mem_range]
      constructor
      · rintro ⟨i, below, here | ⟨k, inside, level, leaf⟩⟩
        · split at here
          · cases here
          · rename_i kept
            obtain rfl := List.mem_singleton.mp here
            refine ⟨0, Nat.zero_lt_succ _, level_succ.mpr ⟨i, below, ?_⟩, fun only => ?_⟩
            · exact ⟨Nat.le_refl _, Nat.lt_succ_self _⟩
            · have zero : levels = 0 := by
                by_contra several
                exact kept (by rw [only, Bool.true_and]; exact decide_eq_true several)
              rw [zero]
        · exact ⟨k + 1, Nat.succ_lt_succ inside, level_succ.mpr ⟨i, below, level⟩,
            fun only => congrArg Nat.succ (leaf only)⟩
      · rintro ⟨k, inside, level, leaf⟩
        obtain ⟨i, below, child⟩ := level_succ.mp level
        refine ⟨i, below, ?_⟩
        cases k with
        | zero =>
            have same : d = b * p + 1 + i := by
              obtain ⟨lower, upper⟩ := child
              rw [first] at lower upper
              rw [pow_zero] at upper
              omega
            refine .inl ?_
            rw [same]
            split
            case isTrue skipped =>
              obtain ⟨only, several⟩ := (Bool.and_eq_true _ _).mp skipped
              have last := leaf only
              exact absurd (Nat.succ.inj last).symm (of_decide_eq_true several)
            case isFalse => exact List.mem_singleton_self _
        | succ k =>
            exact .inr ⟨k, Nat.lt_of_succ_lt_succ inside, child,
              fun only => Nat.succ.inj (leaf only)⟩

/-- The root is not visited. -/
theorem pos_of_mem_preorder (all : order.Perm (List.range b))
    (inside : d ∈ preorder b order leafOnly levels (b * p + 1)) : 0 < d := by
  obtain ⟨k, -, level, -⟩ := (mem_preorder all).mp inside
  have above := level.1
  rw [first_succ] at above
  omega

/-- No directory is visited twice. -/
theorem nodup_preorder (positive : 0 < b) (all : order.Perm (List.range b)) :
    (preorder b order leafOnly levels (b * p + 1)).Nodup := by
  induction levels generalizing p with
  | zero => exact List.nodup_nil
  | succ levels ih =>
      have child : ∀ {i d}, d ∈ (if leafOnly && levels ≠ 0 then [] else [b * p + 1 + i]) →
          d = b * p + 1 + i := by
        intro i d here
        split at here
        · cases here
        · exact List.mem_singleton.mp here
      have below : ∀ {i d}, d ∈ (if leafOnly && levels ≠ 0 then [] else [b * p + 1 + i]) ++
          preorder b order leafOnly levels (b * (b * p + 1 + i) + 1) →
          ∃ k, Level b (b * p + 1 + i) k d := by
        intro i d inside
        rcases List.mem_append.mp inside with here | later
        · exact ⟨0, child here ▸ ⟨Nat.le_refl _, Nat.lt_succ_self _⟩⟩
        · obtain ⟨k, -, level, -⟩ := (mem_preorder all).mp later
          exact ⟨k + 1, level⟩
      rw [preorder, List.nodup_flatMap]
      constructor
      · intro i _
        refine List.Nodup.append ?_ ih ?_
        · split
          · exact List.nodup_nil
          · exact List.nodup_singleton _
        · intro d here later
          obtain ⟨k, -, level, -⟩ := (mem_preorder all).mp later
          rw [child here] at level
          have itself : Level b (b * p + 1 + i) 0 (b * p + 1 + i) :=
            ⟨Nat.le_refl _, Nat.lt_succ_self _⟩
          exact absurd (level_unique positive level itself) (Nat.succ_ne_zero k)
      · refine (all.nodup_iff.mpr List.nodup_range).imp_of_mem ?_
        intro i j inI inJ different d first second
        obtain ⟨k, level⟩ := below first
        obtain ⟨k', level'⟩ := below second
        -- Both are one level further below `p`.
        have belowI := List.mem_range.mp (all.mem_iff.mp inI)
        have belowJ := List.mem_range.mp (all.mem_iff.mp inJ)
        have same := level_unique positive (level_succ.mpr ⟨i, belowI, level⟩)
          (level_succ.mpr ⟨j, belowJ, level'⟩)
        obtain rfl := Nat.succ.inj same
        exact different (level_child_unique level level')

end HandsOn.Mdtest
