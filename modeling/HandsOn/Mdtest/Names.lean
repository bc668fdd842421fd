import HandsOn.Posix.Tree
import HandsOn.Semantics.CString

/-!
# The names of directories and items

The program prints the names of directories and items from parts with dots between them; names
from different numbers, or of different kinds, are different.
-/

namespace HandsOn.Mdtest

open Semantics

/-- A name in a directory. -/
abbrev Name := List Char

/-- `%d` or `%lu` of a natural number. -/
abbrev digits (number : ℕ) : Name := Nat.toDigits 10 number

/-- `%d` -/
def decimal (number : Int) : Name := (if number < 0 then ['-'] else []) ++ digits number.natAbs

/-- `base_tree_name`; with `unique_dir_per_task` it has the rank. -/
def baseTreeName (unique : Bool) (rank : Int) : Name :=
  if unique then "mdtest_tree.".toList ++ decimal rank else "mdtest_tree".toList

/-- A directory of the tree. -/
def treeName (unique : Bool) (rank : Int) (number : ℕ) : Name :=
  baseTreeName unique rank ++ '.' :: digits number

/-- `mk_name` and the other names; with `shared_file` they have no rank. -/
def itemsName (shared : Bool) (rank : Int) : Name :=
  if shared then "mdtest.shared.".toList else "mdtest.".toList ++ decimal rank ++ ['.']

/-- An item, a directory or a file. -/
def itemName (dirs shared : Bool) (rank : Int) (number : ℕ) : Name :=
  (if dirs then "dir.".toList else "file.".toList) ++ itemsName shared rank ++ digits number

example : itemName true false 3 17 = "dir.mdtest.3.17".toList := by decide

/-! ### Parts -/

/-- The parts of the name of a directory of the tree. -/
def treeParts (unique : Bool) (rank : Int) (number : ℕ) : List Name :=
  "mdtest_tree".toList :: ((if unique then [decimal rank] else []) ++ [digits number])

/-- The parts of the name of an item. -/
def itemParts (dirs shared : Bool) (rank : Int) (number : ℕ) : List Name :=
  [if dirs then "dir".toList else "file".toList, "mdtest".toList,
    if shared then "shared".toList else decimal rank, digits number]

theorem treeName_eq (unique : Bool) (rank : Int) (number : ℕ) :
    treeName unique rank number = ['.'].intercalate (treeParts unique rank number) := by
  cases unique <;> simp [treeName, baseTreeName, treeParts, List.intercalate]

theorem itemName_eq (dirs shared : Bool) (rank : Int) (number : ℕ) :
    itemName dirs shared rank number = ['.'].intercalate (itemParts dirs shared rank number) := by
  cases dirs <;> cases shared <;> simp [itemName, itemsName, itemParts, List.intercalate]

theorem not_mem_digits {char : Char} (other : char.isDigit = false) (number : ℕ) :
    char ∉ digits number := by
  intro inside
  have digit := Nat.isDigit_of_mem_toDigits (by decide) (by decide) inside
  exact Bool.false_ne_true (other.symm.trans digit)

theorem dot_not_mem_decimal (number : Int) : '.' ∉ decimal number := by
  rw [decimal, List.mem_append, not_or]
  refine ⟨?_, not_mem_digits rfl _⟩
  split <;> decide

/-- Different numbers have different digits or one of them a sign. -/
theorem decimal_injective : Function.Injective decimal := by
  have unsigned {a b : ℕ} : '-' :: digits a ≠ digits b := fun same =>
    not_mem_digits rfl b (same ▸ List.mem_cons_self)
  intro a b same
  rw [decimal, decimal] at same
  split at same <;> split at same
  case isTrue.isTrue =>
    have := toDigits_injective (List.cons.inj same).2
    omega
  case isTrue.isFalse => exact absurd same unsigned
  case isFalse.isTrue => exact absurd same.symm unsigned
  case isFalse.isFalse =>
    have := toDigits_injective same
    omega

theorem dot_not_mem_treeParts {unique : Bool} {rank : Int} {number : ℕ} :
    ∀ part ∈ treeParts unique rank number, '.' ∉ part := by
  intro part inside
  cases unique <;>
    simp only [treeParts, if_true, Bool.false_eq_true, if_false, List.mem_cons, List.mem_append,
      List.not_mem_nil, or_false, false_or] at inside
  · rcases inside with rfl | rfl
    · decide
    · exact not_mem_digits rfl _
  · rcases inside with rfl | rfl | rfl
    · decide
    · exact dot_not_mem_decimal _
    · exact not_mem_digits rfl _

theorem dot_not_mem_itemParts {dirs shared : Bool} {rank : Int} {number : ℕ} :
    ∀ part ∈ itemParts dirs shared rank number, '.' ∉ part := by
  intro part inside
  simp only [itemParts, List.mem_cons, List.not_mem_nil, or_false] at inside
  rcases inside with rfl | rfl | rfl | rfl
  · cases dirs <;> decide
  · decide
  · split
    · decide
    · exact dot_not_mem_decimal _
  · exact not_mem_digits rfl _

/-- The parts can be read from a name. -/
theorem intercalate_inj {parts parts' : List Name} (dots : ∀ part ∈ parts, '.' ∉ part)
    (dots' : ∀ part ∈ parts', '.' ∉ part) (some' : parts ≠ []) (some'' : parts' ≠ [])
    (same : ['.'].intercalate parts = ['.'].intercalate parts') : parts = parts' := by
  rw [← List.splitOn_intercalate '.' dots some', same, List.splitOn_intercalate '.' dots' some'']

theorem treeName_inj {unique : Bool} {rank rank' : Int} {number number' : ℕ}
    (same : treeName unique rank number = treeName unique rank' number') :
    (unique = true → rank = rank') ∧ number = number' := by
  rw [treeName_eq, treeName_eq] at same
  have parts := intercalate_inj dot_not_mem_treeParts dot_not_mem_treeParts
    (List.cons_ne_nil _ _) (List.cons_ne_nil _ _) same
  cases unique with
  | false =>
      simp only [treeParts, Bool.false_eq_true, if_false, List.nil_append, List.cons.injEq,
        and_true, true_and] at parts
      exact ⟨fun unique => absurd unique Bool.false_ne_true, toDigits_injective parts⟩
  | true =>
      simp only [treeParts, if_true, List.cons_append, List.nil_append, List.cons.injEq,
        and_true, true_and] at parts
      exact ⟨fun _ => decimal_injective parts.1, toDigits_injective parts.2⟩

theorem itemName_inj {dirs dirs' shared : Bool} {rank rank' : Int} {number number' : ℕ}
    (same : itemName dirs shared rank number = itemName dirs' shared rank' number') :
    dirs = dirs' ∧ (shared = false → rank = rank') ∧ number = number' := by
  rw [itemName_eq, itemName_eq] at same
  have parts := intercalate_inj dot_not_mem_itemParts dot_not_mem_itemParts
    (List.cons_ne_nil _ _) (List.cons_ne_nil _ _) same
  simp only [itemParts, List.cons.injEq, and_true, true_and] at parts
  obtain ⟨kind, owner, count⟩ := parts
  refine ⟨?_, fun own => ?_, toDigits_injective count⟩
  · cases dirs <;> cases dirs' <;> simp_all
  · subst own
    exact decimal_injective owner

/-- An item is no directory of the tree. -/
theorem treeName_ne_itemName {unique dirs shared : Bool} {rank rank' : Int}
    {number number' : ℕ} :
    treeName unique rank number ≠ itemName dirs shared rank' number' := by
  intro same
  rw [treeName_eq, itemName_eq] at same
  have parts := intercalate_inj dot_not_mem_treeParts dot_not_mem_itemParts
    (List.cons_ne_nil _ _) (List.cons_ne_nil _ _) same
  have kind := (List.cons.inj parts).1
  cases dirs <;> exact absurd kind (by decide)

end HandsOn.Mdtest
