import HandsOn.Mdtest.Hierarchy
import HandsOn.Semantics.Blocks
import HandsOn.Semantics.Refuse

/-!
# Creation and visits agree

Items are created in preorder of the directories and visited by number or in a random order.
The numbers are the same, whatever the hierarchy.
-/

namespace HandsOn.Mdtest

open Posix Semantics

/-- The options which the items depend on. -/
structure Options where
  branchFactor : ℕ
  depth : ℕ
  items : ℕ
  itemsPerDir : ℕ
  leafOnly : Bool
  uniqueDirPerTask : Bool
  sharedFile : Bool
  filesOnly : Bool
  dirsOnly : Bool
  createOnly : Bool
  statOnly : Bool
  readOnly : Bool
  removeOnly : Bool
  barriers : Bool
  nstride : Int32
deriving DecidableEq

/-- What `valid_tests` sets where options were left out. -/
def setDefaults (options : Options) : Options :=
  let options :=
    if !options.createOnly ∧ !options.statOnly ∧ !options.readOnly ∧ !options.removeOnly then
      { options with createOnly := true, statOnly := true, readOnly := true, removeOnly := true }
    else options
  let options :=
    if !options.dirsOnly ∧ !options.filesOnly then
      { options with dirsOnly := true, filesOnly := true }
    else options
  if options.sharedFile then { options with dirsOnly := false } else options

/-- `valid_tests` on these options, without a stone wall. -/
def validTests (options : Options) : Except String Options := do
  refuse (!options.barriers)
    "Error, stone wall timer does only work with a branch factor <= 1 and with barriers"
  let options := setDefaults options
  refuse (!options.barriers ∧ options.nstride ≠ 0)
    "Possible race conditions will occur: -B not compatible with -N"
  refuse (options.uniqueDirPerTask ∧ options.sharedFile) "-u not compatible with -S"
  refuse (options.branchFactor < 1 ∧ 0 < options.depth)
    "branch factor must be greater than or equal to zero"
  refuse (0 < options.items ∧ 0 < options.itemsPerDir ∧ options.uniqueDirPerTask)
    "only specify the number of items or the number of items per directory"
  refuse (0 < options.items ∧ 0 < options.itemsPerDir ∧ options.items % options.itemsPerDir ≠ 0)
    "items must be a multiple of items per directory"
  return options

/-- `rand_array`: from the last number down, each is exchanged with one chosen from those that
are not after it. -/
def randArray (choice : ℕ → ℕ) (items : ℕ) : Array ℕ :=
  exchange choice (List.range' 1 (items - 1)).reverse (Array.range items)

/-- The order of the visits, random or by number. -/
def pick (random : Option (ℕ → ℕ)) (items i : ℕ) : ℕ :=
  match random with
  | none => i
  | some choice => (randArray choice items).getD i 0

/-- The directories in which items are have consecutive numbers. -/
def firstWithItems (b depth : ℕ) (leafOnly : Bool) : ℕ := if leafOnly then first b depth 0 else 0

namespace Options

variable (options : Options)

/-- The directories in which items are, per tree. -/
def dirsWithItems : ℕ :=
  if options.leafOnly then options.branchFactor ^ options.depth
  else numDirsInTree options.branchFactor options.depth

/-- `items_per_dir` as `mdtest_run` sets it up. -/
def perDir : ℕ :=
  if 0 < options.itemsPerDir then options.itemsPerDir
  else if options.leafOnly && options.branchFactor ≤ 1 then options.items
  else options.items / options.dirsWithItems

/-- `items` as `mdtest_run` sets it up. -/
def total : ℕ :=
  if 0 < options.itemsPerDir then
    if options.items = 0 then options.itemsPerDir * options.dirsWithItems else options.items
  else if options.leafOnly && options.branchFactor ≤ 1 then options.items
  else options.items / options.dirsWithItems * options.dirsWithItems

/-- The first number of an item. -/
def firstItem : ℕ :=
  options.perDir * firstWithItems options.branchFactor options.depth options.leafOnly

/-- The numbers of the items in the order in which they are created. -/
def created : List ℕ :=
  createdNumbers options.branchFactor options.leafOnly options.perDir options.depth

/-- The numbers of the items in the order in which they are visited. -/
def visited (random : Option (ℕ → ℕ)) : List ℕ :=
  (List.range options.total).map fun i => itemNum options.branchFactor options.leafOnly
    options.perDir options.depth (pick random options.total i)

/-- The hierarchy can be made. -/
def Allowed : Prop := 0 < options.branchFactor ∨ options.depth = 0

end Options

/-! ### How many directories there are -/

theorem pow_eq_first {b : ℕ} (positive : 0 < b) (k : ℕ) :
    b ^ k = first b k 0 * (b - 1) + 1 := by
  induction k with
  | zero => simp [first]
  | succ k ih =>
      have split : b ^ (k + 1) = b ^ k * (b - 1) + b ^ k := by
        rw [pow_succ, ← Nat.mul_succ, Nat.succ_eq_add_one, Nat.sub_add_cancel positive]
      rw [split, first_zero_succ, Nat.add_mul]
      omega

theorem numDirsInTree_eq {b depth : ℕ} (allowed : 0 < b ∨ depth = 0) :
    numDirsInTree b depth = first b (depth + 1) 0 := by
  rw [numDirsInTree]
  split
  case isTrue flat =>
    rw [flat]
    rfl
  case isFalse deep =>
    have positive : 0 < b := by omega
    rw [if_neg (by omega)]
    have powers := pow_eq_first positive (depth + 1)
    split
    case isTrue single =>
      subst single
      clear powers deep allowed
      induction depth with
      | zero => rfl
      | succ depth ih => rw [first_zero_succ, ← ih, one_pow]
    case isFalse several =>
      rw [powers, Nat.add_sub_cancel]
      exact Nat.mul_div_cancel _ (by omega)

section

variable {b depth : ℕ} {leafOnly : Bool}

variable (leafOnly) in
theorem mem_dirs (allowed : 0 < b ∨ depth = 0) {d : ℕ} :
    d ∈ (if !leafOnly || (depth = 0 && leafOnly) then [0] else []) ++
        preorder b (List.range b) leafOnly depth 1 ↔
      firstWithItems b depth leafOnly ≤ d ∧ d < first b (depth + 1) 0 := by
  have below : d ∈ preorder b (List.range b) leafOnly depth (b * 0 + 1) ↔
      ∃ k < depth, Level b 0 (k + 1) d ∧ (leafOnly = true → k + 1 = depth) :=
    mem_preorder (.refl _)
  rw [Nat.mul_zero, Nat.zero_add] at below
  have root : d ∈ (if !leafOnly || (depth = 0 && leafOnly) then [0] else []) ↔
      d = 0 ∧ (leafOnly = true → depth = 0) := by
    cases leafOnly <;> by_cases flat : depth = 0 <;> simp [flat]
  rw [List.mem_append, root, below]
  constructor
  · rintro (⟨rfl, leaf⟩ | ⟨k, inside, level, leaf⟩)
    · refine ⟨?_, by rw [first_succ]; exact Nat.succ_pos _⟩
      rw [firstWithItems]
      split
      case isTrue only => rw [leaf only]; exact Nat.le_refl 0
      case isFalse => exact Nat.le_refl 0
    · refine ⟨?_, level.lt (allowed.resolve_right (Nat.ne_zero_of_lt inside)) inside⟩
      rw [firstWithItems]
      split
      case isTrue only => exact leaf only ▸ level.1
      case isFalse => exact Nat.zero_le _
  · rintro ⟨lower, upper⟩
    rw [firstWithItems] at lower
    split at lower
    case isTrue only =>
      cases depth with
      | zero =>
          rw [first_zero_succ, first] at upper
          exact .inl ⟨Nat.lt_one_iff.mp upper, fun _ => rfl⟩
      | succ depth =>
          rw [first_zero_succ] at upper
          exact .inr ⟨depth, Nat.lt_succ_self _, ⟨lower, upper⟩, fun _ => rfl⟩
    case isFalse several =>
      obtain ⟨k, above, level⟩ := exists_level upper
      cases k with
      | zero =>
          have here := level.2
          rw [first, pow_zero] at here
          exact .inl ⟨by omega, fun only => absurd only several⟩
      | succ k => exact .inr ⟨k, above, level, fun only => absurd only several⟩

variable (leafOnly) in
theorem nodup_dirs (allowed : 0 < b ∨ depth = 0) :
    ((if !leafOnly || (depth = 0 && leafOnly) then [0] else []) ++
      preorder b (List.range b) leafOnly depth 1).Nodup := by
  rcases allowed with positive | rfl
  · have below : (preorder b (List.range b) leafOnly depth (b * 0 + 1)).Nodup :=
      nodup_preorder positive (.refl _)
    have deeper : ∀ d ∈ preorder b (List.range b) leafOnly depth (b * 0 + 1), d ≠ 0 :=
      fun d inside => Nat.ne_of_gt (pos_of_mem_preorder (.refl _) inside)
    rw [Nat.mul_zero, Nat.zero_add] at below deeper
    refine List.Nodup.append ?_ below fun d here there => deeper d there ?_
    · split
      · exact List.nodup_singleton _
      · exact List.nodup_nil
    · split at here
      · exact List.mem_singleton.mp here
      · cases here
  · cases leafOnly <;> exact List.nodup_singleton 0

/-- The items that are created have consecutive numbers. -/
theorem mem_createdNumbers (allowed : 0 < b ∨ depth = 0) {itemsPerDir number : ℕ} :
    number ∈ createdNumbers b leafOnly itemsPerDir depth ↔
      itemsPerDir * firstWithItems b depth leafOnly ≤ number ∧
        number < itemsPerDir * first b (depth + 1) 0 := by
  simp only [createdNumbers, List.mem_flatMap, mem_dirs leafOnly allowed, numbersIn, List.mem_map,
    List.mem_range]
  constructor
  · rintro ⟨d, ⟨lower, upper⟩, i, inside, rfl⟩
    have start := Nat.mul_le_mul_left itemsPerDir lower
    have stop := Nat.mul_le_mul_left itemsPerDir (Nat.succ_le_of_lt upper)
    rw [Nat.mul_succ] at stop
    rw [Nat.mul_comm d]
    omega
  · rintro ⟨lower, upper⟩
    have positive : 0 < itemsPerDir := by
      rcases Nat.eq_zero_or_pos itemsPerDir with rfl | positive
      · rw [Nat.zero_mul] at upper
        omega
      · exact positive
    refine ⟨number / itemsPerDir, ⟨?_, Nat.div_lt_of_lt_mul upper⟩, number % itemsPerDir,
      Nat.mod_lt _ positive, Nat.div_add_mod' _ _⟩
    exact (Nat.le_div_iff_mul_le positive).mpr (by rwa [Nat.mul_comm])

theorem nodup_createdNumbers (allowed : 0 < b ∨ depth = 0) (itemsPerDir : ℕ) :
    (createdNumbers b leafOnly itemsPerDir depth).Nodup := by
  refine List.nodup_flatMap.mpr ⟨fun d _ => ?_, (nodup_dirs leafOnly allowed).imp ?_⟩
  · exact List.nodup_range.map fun i j same => Nat.add_left_cancel same
  · intro d d' different number first second
    obtain ⟨i, inside, rfl⟩ := List.mem_map.mp first
    obtain ⟨j, inside', same⟩ := List.mem_map.mp second
    have inside := List.mem_range.mp inside
    have inside' := List.mem_range.mp inside'
    apply different
    have quotient := congrArg (· / itemsPerDir) same
    simp only [Nat.mul_comm _ itemsPerDir, Nat.mul_add_div (Nat.zero_lt_of_lt inside),
      Nat.div_eq_of_lt inside, Nat.div_eq_of_lt inside', Nat.add_zero] at quotient
    exact quotient.symm

end

/-! ### The visits -/

theorem randArray_perm (choice : ℕ → ℕ) (items : ℕ) :
    (randArray choice items).toList.Perm (List.range items) := by
  have shuffled := (exchange_perm choice (List.range' 1 (items - 1)).reverse
    (Array.range items)).toList
  rwa [Array.toList_range] at shuffled

/-- Each number is picked once. -/
theorem pick_perm (random : Option (ℕ → ℕ)) (items : ℕ) :
    ((List.range items).map (pick random items)).Perm (List.range items) := by
  cases random with
  | none => exact .of_eq (List.map_id _)
  | some choice =>
      have shuffled := randArray_perm choice items
      have sized : (randArray choice items).toList.length = items := by
        rw [shuffled.length_eq, List.length_range]
      refine List.Perm.trans (.of_eq ?_) shuffled
      apply List.ext_getElem
      · rw [List.length_map, List.length_range, sized]
      · intro i _ inside
        have bound : i < (randArray choice items).size := inside
        simp [pick, Array.getD, bound]

variable {options : Options}

theorem dirsWithItems_eq (allowed : options.Allowed) :
    firstWithItems options.branchFactor options.depth options.leafOnly + options.dirsWithItems =
      first options.branchFactor (options.depth + 1) 0 := by
  rw [firstWithItems, Options.dirsWithItems]
  split
  · rw [first_zero_succ]
  · rw [numDirsInTree_eq allowed, Nat.zero_add]

/-- Without loops every directory with items has as many. -/
theorem total_eq (allowed : options.Allowed)
    (single : options.items = 0 ∨ options.itemsPerDir = 0) :
    options.total = options.perDir * options.dirsWithItems := by
  rw [Options.total, Options.perDir]
  split
  case isTrue given =>
    rw [if_pos (single.resolve_right (Nat.ne_of_gt given))]
  case isFalse =>
    split
    case isTrue chain =>
      obtain ⟨leaf, narrow⟩ := (Bool.and_eq_true _ _).mp chain
      have one : options.dirsWithItems = 1 := by
        rw [Options.dirsWithItems, if_pos leaf]
        rcases allowed with positive | flat
        · rw [Nat.le_antisymm (of_decide_eq_true narrow) positive, one_pow]
        · rw [flat, pow_zero]
      rw [one, Nat.mul_one]
    case isFalse => rfl

theorem itemNum_eq (allowed : options.Allowed) (i : ℕ) :
    itemNum options.branchFactor options.leafOnly options.perDir options.depth i =
      options.firstItem + i := by
  rw [itemNum, Options.firstItem, firstWithItems]
  split
  · rw [numDirsInTree_eq allowed, first_zero_succ, Nat.add_sub_cancel, Nat.add_comm]
  · rw [Nat.mul_zero, Nat.zero_add]

theorem mem_created (allowed : options.Allowed)
    (single : options.items = 0 ∨ options.itemsPerDir = 0) {number : ℕ} :
    number ∈ options.created ↔
      options.firstItem ≤ number ∧ number < options.firstItem + options.total := by
  rw [Options.created, mem_createdNumbers allowed, ← dirsWithItems_eq allowed, Nat.mul_add,
    ← total_eq allowed single, Options.firstItem]

theorem nodup_created (allowed : options.Allowed) : options.created.Nodup :=
  nodup_createdNumbers allowed _

/-- The items that are visited are those that are created. -/
theorem visited_perm (allowed : options.Allowed)
    (single : options.items = 0 ∨ options.itemsPerDir = 0) (random : Option (ℕ → ℕ)) :
    (options.visited random).Perm options.created := by
  have byNumber : options.visited random =
      ((List.range options.total).map (pick random options.total)).map (options.firstItem + ·) := by
    rw [Options.visited, List.map_map]
    exact List.map_congr_left fun i _ => itemNum_eq allowed _
  rw [byNumber]
  refine ((pick_perm random options.total).map _).trans ?_
  have distinct : ((List.range options.total).map (options.firstItem + ·)).Nodup :=
    List.nodup_range.map fun i j same => Nat.add_left_cancel same
  refine (List.perm_ext_iff_of_nodup distinct (nodup_created allowed)).mpr fun number => ?_
  rw [mem_created allowed single]
  simp only [List.mem_map, List.mem_range]
  constructor
  · rintro ⟨i, inside, rfl⟩
    exact ⟨Nat.le_add_right _ _, Nat.add_lt_add_left inside _⟩
  · rintro ⟨lower, upper⟩
    exact ⟨number - options.firstItem, by omega, by omega⟩

/-- Two files in each of the four directories of the last level. -/
def leafOptions : Options where
  branchFactor := 2
  depth := 2
  items := 0
  itemsPerDir := 2
  leafOnly := true
  uniqueDirPerTask := false
  sharedFile := false
  filesOnly := true
  dirsOnly := false
  createOnly := true
  statOnly := true
  readOnly := true
  removeOnly := true
  barriers := true
  nstride := 0

end HandsOn.Mdtest
