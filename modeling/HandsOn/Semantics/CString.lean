import Mathlib.Algebra.Group.Int.Defs
import Mathlib.Algebra.Group.Nat.Defs
import Mathlib.Data.List.Basic
import Mathlib.Data.Nat.Notation
import Mathlib.Tactic.Common

/-!
# Strings of C

Texts end before their first zero. A buffer holds a fixed number of characters and a zero after
them; `strncpy` fills these characters, `snprintf` and `atoi` print and read numbers.
-/

namespace HandsOn.Semantics

/-- The characters of a string before its terminating zero. -/
structure Text where
  chars : List Char
  noZero : '\x00' ∉ chars
deriving DecidableEq

/-- An array of `count + 1` characters of which the last is zero. -/
structure Buffer (count : ℕ) where
  chars : List Char
  terminated : chars.drop count = ['\x00']

theorem Buffer.length {count : ℕ} (buffer : Buffer count) : buffer.chars.length = count + 1 := by
  have rest := congrArg List.length buffer.terminated
  rw [List.length_drop, List.length_singleton] at rest
  omega

/-- The string in an array. -/
def cString (chars : List Char) : List Char := chars.takeWhile (· ≠ '\x00')

/-- `strncpy(buffer, text, count)` of an array of `count + 1` characters. -/
def Buffer.strncpy {count : ℕ} (buffer : Buffer count) (text : Text) : Buffer count where
  chars := text.chars.take count ++ List.replicate (count - text.chars.length) '\x00' ++
    buffer.chars.drop count
  terminated := by
    rw [buffer.terminated, List.drop_append_of_le_length] <;>
      simp <;> omega

/-- The first `received` characters of an array copied over another array. -/
def Buffer.copy {count : ℕ} (source buffer : Buffer count) (received : ℕ) : Buffer count where
  chars := source.chars.take received ++ buffer.chars.drop received
  terminated := by
    rcases Nat.lt_or_ge count received with whole | partly
    · have nothing : buffer.chars.drop received = [] :=
        List.drop_eq_nil_of_le (buffer.length ▸ whole)
      rw [nothing, List.append_nil, List.take_of_length_le (source.length ▸ whole),
        source.terminated]
    · rw [List.drop_append, List.length_take, source.length,
        Nat.min_eq_left (Nat.le_succ_of_le partly), List.drop_drop, Nat.add_sub_cancel' partly,
        buffer.terminated, List.drop_eq_nil_of_le]
      · rfl
      · exact Nat.le_trans (List.length_take_le _ _) partly

theorem cString_strncpy {count : ℕ} (buffer : Buffer count) (text : Text) :
    cString (buffer.strncpy text).chars = text.chars.take count := by
  have nonzero : ∀ char ∈ text.chars.take count, decide (char ≠ '\x00') = true := by
    intro char member
    refine decide_eq_true fun zero => text.noZero ?_
    exact zero ▸ List.mem_of_mem_take member
  have rest : cString (List.replicate (count - text.chars.length) '\x00' ++
      buffer.chars.drop count) = [] := by
    rw [buffer.terminated]
    cases count - text.chars.length <;> rfl
  change cString (_ ++ _ ++ _) = _
  rw [List.append_assoc, cString, List.takeWhile_append_of_pos nonzero, ← cString, rest,
    List.append_nil]

/-- A string ends at a zero of its array. -/
theorem eq_cString_append {chars : List Char} (zero : '\x00' ∈ chars) :
    ∃ rest, chars = cString chars ++ '\x00' :: rest := by
  induction chars with
  | nil => exact absurd zero List.not_mem_nil
  | cons char chars ih =>
    by_cases last : char = '\x00'
    · exact ⟨chars, by simp [cString, last]⟩
    · obtain ⟨rest, split⟩ := ih ((List.mem_cons.mp zero).resolve_left (Ne.symm last))
      refine ⟨rest, ?_⟩
      rw [cString, List.takeWhile_cons_of_pos (by simp [last]), List.cons_append, ← cString,
        ← split]

theorem Buffer.zero_mem {count : ℕ} (buffer : Buffer count) : '\x00' ∈ buffer.chars := by
  rw [← List.take_append_drop count buffer.chars, buffer.terminated]
  exact List.mem_append_right _ (List.mem_singleton_self _)

/-- A string that is copied with its terminating zero is the same. -/
theorem cString_copy {count : ℕ} (source buffer : Buffer count) :
    cString (source.copy buffer ((cString source.chars).length + 1)).chars =
      cString source.chars := by
  obtain ⟨rest, chars⟩ := eq_cString_append source.zero_mem
  have nonzero : ∀ char ∈ cString source.chars, decide (char ≠ '\x00') = true :=
    List.all_eq_true.mp List.all_takeWhile
  change cString (source.chars.take _ ++ _) = _
  generalize cString source.chars = text at chars nonzero ⊢
  rw [chars, List.take_length_add_append, List.append_assoc, cString,
    List.takeWhile_append_of_pos nonzero]
  exact List.append_nil _

/-- `snprintf(buffer, size, ...)` of a text. -/
def snprintf (size : ℕ) (text : List Char) : List Char := text.take (size - 1)

/-- `%d` -/
def decimal (value : Int32) : List Char :=
  if value < 0 then '-' :: Nat.toDigits 10 value.toInt.natAbs
  else Nat.toDigits 10 value.toInt.natAbs

/-- `isspace` -/
def isspace (char : Char) : Bool := char = ' ' || (9 ≤ char.toNat && char.toNat ≤ 13)

/-- `strtol(text, NULL, 10)` -/
def strtol (text : List Char) : Int :=
  let number (rest : List Char) : Int := Nat.ofDigitChars 10 (rest.takeWhile Char.isDigit) 0
  let value : Int := match text.dropWhile isspace with
    | '-' :: rest => -number rest
    | '+' :: rest => number rest
    | rest => number rest
  max (-2 ^ 63) (min value (2 ^ 63 - 1))

/-- `atoi` -/
def atoi (text : List Char) : Int32 := Int32.ofInt (strtol text)

/-! ### Digits -/

theorem decimal_of_nonneg {value : Int32} (nonneg : 0 ≤ value) :
    decimal value = Nat.toDigits 10 value.toInt.toNat := by
  have positive : 0 ≤ value.toInt := Int32.le_iff_toInt_le.mp nonneg
  rw [decimal, if_neg (Int32.not_lt.mpr nonneg)]
  congr 1
  omega

theorem decimal_ofNat {number : ℕ} (fits : number < 2 ^ 31) :
    decimal (Int32.ofNat number) = Nat.toDigits 10 number := by
  have value := Int32.toInt_ofNat_of_lt fits
  have nonneg : 0 ≤ Int32.ofNat number := by
    rw [Int32.le_iff_toInt_le, value, Int32.toInt_zero]
    exact Int.natCast_nonneg number
  rw [decimal_of_nonneg nonneg, value, Int.toNat_natCast]

/-- A number is read back from its digits. -/
theorem toDigits_injective {first second : ℕ}
    (equal : Nat.toDigits 10 first = Nat.toDigits 10 second) : first = second := by
  have read := congrArg (Nat.ofDigitChars 10 · 0) equal
  simpa only [Nat.ofDigitChars_ten_toDigits] using read

/-- A larger number has no fewer digits. -/
theorem length_toDigits_mono {first second : ℕ} (ordered : first ≤ second) :
    (Nat.toDigits 10 first).length ≤ (Nat.toDigits 10 second).length := by
  have positive : 0 < (Nat.toDigits 10 second).length := Nat.length_toDigits_pos
  have below := (Nat.length_toDigits_le_iff (by decide) positive).mp (Nat.le_refl _)
  exact (Nat.length_toDigits_le_iff (by decide) positive).mpr (Nat.lt_of_le_of_lt ordered below)

end HandsOn.Semantics
