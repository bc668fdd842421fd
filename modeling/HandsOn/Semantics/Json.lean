import Mathlib.Data.List.Basic
import Mathlib.Data.Nat.Notation
import Mathlib.Tactic.Common

/-!
# JSON texts

`Renders` is the grammar of JSON texts; a value keeps the characters of its strings and numbers as
they are written. A `Scan` reads a text from left to right with the brackets that are open: it
comes through each text of the grammar with the same brackets open, and so a text that it does not
come through is not JSON.
-/

namespace HandsOn.Semantics.Json

/-- Through the text, and not through all characters. -/
instance (priority := 2000) decidableForallMem {text : List Char} {holds : Char → Prop}
    [DecidablePred holds] : Decidable (∀ char ∈ text, holds char) :=
  List.decidableBAll holds text

/-- A value; strings and numbers are as in the text. -/
inductive Value where
  | literal (word : List Char)
  | number (text : List Char)
  | string (chars : List Char)
  | array (elements : List Value)
  | object (members : List (List Char × Value))

/-- What stands between two commas. -/
inductive Entry where
  | element (value : Value)
  | member (key : List Char) (value : Value)

/-- A part of a text. -/
inductive Node where
  | value (value : Value)
  | entry (entry : Entry)
  | sequence (entries : List Entry)

def IsSpace (char : Char) : Prop := char ∈ [' ', '\t', '\n', '\r']

instance : DecidablePred IsSpace := fun _ => inferInstanceAs (Decidable (_ ∈ _))

/-- A character of a string that stands for itself. -/
def Plain (char : Char) : Prop := char ≠ '"' ∧ char ≠ '\\' ∧ 32 ≤ char.toNat

instance : DecidablePred Plain := fun _ => inferInstanceAs (Decidable (_ ∧ _))

def Digits (text : List Char) : Prop := text ≠ [] ∧ ∀ char ∈ text, char.isDigit

/-- Characters of a string. -/
inductive Characters : List Char → Prop
  | nil : Characters []
  | plain {char rest} : Plain char → Characters rest → Characters (char :: rest)
  | escape {char rest} : char ∈ "\"\\/bfnrt".toList → Characters rest →
      Characters ('\\' :: char :: rest)
  | unicode {digits rest} : digits.length = 4 →
      (∀ digit ∈ digits, digit ∈ "0123456789abcdefABCDEF".toList) → Characters rest →
      Characters ('\\' :: 'u' :: (digits ++ rest))

/-- The digits of a number before the point, without leading zeros. -/
def Whole (text : List Char) : Prop := text = ['0'] ∨ Digits text ∧ text.head? ≠ some '0'

/-- The digits of a number after the point. -/
def Fraction (text : List Char) : Prop := text = [] ∨ ∃ digits, Digits digits ∧ text = '.' :: digits

def Exponent (text : List Char) : Prop :=
  text = [] ∨ ∃ mark ∈ ['e', 'E'], ∃ sign ∈ [[], ['+'], ['-']], ∃ digits, Digits digits ∧
    text = mark :: (sign ++ digits)

structure IsNumber (text : List Char) : Prop where
  parts : ∃ sign ∈ [[], ['-']], ∃ whole fraction exponent, Whole whole ∧ Fraction fraction ∧
    Exponent exponent ∧ text = sign ++ (whole ++ (fraction ++ exponent))

/-- The text is one of the node. -/
inductive Renders : Node → List Char → Prop
  | spaceBefore {value char text} : IsSpace char → Renders (.value value) text →
      Renders (.value value) (char :: text)
  | spaceAfter {value char text} : IsSpace char → Renders (.value value) text →
      Renders (.value value) (text ++ [char])
  | literal {word} : word ∈ ["true".toList, "false".toList, "null".toList] →
      Renders (.value (.literal word)) word
  | number {text} : IsNumber text → Renders (.value (.number text)) text
  | string {chars} : Characters chars → Renders (.value (.string chars)) ('"' :: (chars ++ ['"']))
  | array {elements inner} : Renders (.sequence (elements.map .element)) inner →
      Renders (.value (.array elements)) ('[' :: (inner ++ [']']))
  | object {members inner} :
      Renders (.sequence (members.map fun entry => .member entry.1 entry.2)) inner →
      Renders (.value (.object members)) ('{' :: (inner ++ ['}']))
  | element {value text} : Renders (.value value) text → Renders (.entry (.element value)) text
  | member {key value text before after} : Characters key → (∀ char ∈ before, IsSpace char) →
      (∀ char ∈ after, IsSpace char) → Renders (.value value) text →
      Renders (.entry (.member key value)) (before ++ '"' :: (key ++ '"' :: (after ++ ':' :: text)))
  | empty {spaces} : (∀ char ∈ spaces, IsSpace char) → Renders (.sequence []) spaces
  | single {entry text} : Renders (.entry entry) text → Renders (.sequence [entry]) text
  | more {entry next entries text rest} : Renders (.entry entry) text →
      Renders (.sequence (next :: entries)) rest →
      Renders (.sequence (entry :: next :: entries)) (text ++ ',' :: rest)

/-! ### Spaces and commas -/

variable {value : Value} {entry : Entry} {entries others : List Entry}
  {text rest spaces : List Char}

theorem characters_of_plain {chars : List Char} (plain : ∀ char ∈ chars, Plain char) :
    Characters chars := by
  induction chars with
  | nil => exact .nil
  | cons char chars ih =>
      exact .plain (plain char List.mem_cons_self)
        (ih fun other inside => plain other (List.mem_cons_of_mem char inside))

theorem Renders.value_before (blank : ∀ char ∈ spaces, IsSpace char)
    (renders : Renders (.value value) text) : Renders (.value value) (spaces ++ text) := by
  induction spaces with
  | nil => exact renders
  | cons char spaces ih =>
      apply Renders.spaceBefore (blank char List.mem_cons_self)
      exact ih fun other inside => blank other (List.mem_cons_of_mem char inside)

theorem Renders.value_after (blank : ∀ char ∈ spaces, IsSpace char)
    (renders : Renders (.value value) text) : Renders (.value value) (text ++ spaces) := by
  induction spaces generalizing text with
  | nil => rwa [List.append_nil]
  | cons char spaces ih =>
      rw [List.append_cons]
      apply ih fun other inside => blank other (List.mem_cons_of_mem char inside)
      exact renders.spaceAfter (blank char List.mem_cons_self)

theorem Renders.entry_before (blank : ∀ char ∈ spaces, IsSpace char)
    (renders : Renders (.entry entry) text) : Renders (.entry entry) (spaces ++ text) := by
  cases renders with
  | element renders => exact .element (renders.value_before blank)
  | member key before after renders =>
      rw [← List.append_assoc]
      refine .member key (fun char inside => ?_) after renders
      exact (List.mem_append.mp inside).elim (blank char) (before char)

theorem Renders.entry_after (blank : ∀ char ∈ spaces, IsSpace char)
    (renders : Renders (.entry entry) text) : Renders (.entry entry) (text ++ spaces) := by
  cases renders with
  | element renders => exact .element (renders.value_after blank)
  | member key before after renders =>
      have longer := Renders.member key before after (renders.value_after blank)
      simpa only [List.append_assoc, List.cons_append] using longer

theorem Renders.before (blank : ∀ char ∈ spaces, IsSpace char)
    (renders : Renders (.sequence entries) text) :
    Renders (.sequence entries) (spaces ++ text) := by
  cases renders with
  | empty others =>
      refine .empty fun char inside => ?_
      exact (List.mem_append.mp inside).elim (blank char) (others char)
  | single renders => exact .single (renders.entry_before blank)
  | more renders others =>
      rw [← List.append_assoc]
      exact .more (renders.entry_before blank) others

theorem Renders.after (blank : ∀ char ∈ spaces, IsSpace char)
    (renders : Renders (.sequence entries) text) :
    Renders (.sequence entries) (text ++ spaces) := by
  induction entries generalizing text with
  | nil =>
      cases renders with
      | empty others =>
          refine .empty fun char inside => ?_
          exact (List.mem_append.mp inside).elim (others char) (blank char)
  | cons entry entries ih =>
      cases renders with
      | single renders => exact .single (renders.entry_after blank)
      | more renders others =>
          rw [List.append_assoc, List.cons_append]
          exact .more renders (ih others)

/-- Two sequences with a comma between them. -/
theorem Renders.append (left : Renders (.sequence entries) text)
    (right : Renders (.sequence others) rest) (some : entries ≠ []) (more : others ≠ []) :
    Renders (.sequence (entries ++ others)) (text ++ ',' :: rest) := by
  induction entries generalizing text with
  | nil => exact absurd rfl some
  | cons entry entries ih =>
      cases left with
      | single left =>
          obtain ⟨next, others, rfl⟩ := List.exists_cons_of_ne_nil more
          exact .more left right
      | more left others =>
          rw [List.append_assoc, List.cons_append]
          exact .more left (ih others (List.cons_ne_nil _ _))

/-! ### Scans -/

inductive Bracket where
  | square
  | curly
deriving DecidableEq

namespace Bracket

def left : Bracket → Char
  | square => '['
  | curly => '{'

def right : Bracket → Char
  | square => ']'
  | curly => '}'

end Bracket

/-- In or out of a string; out of a string, whether the last character was `f`. -/
inductive Mode where
  | outside (afterF : Bool)
  | quoted
  | escaped
deriving DecidableEq

structure Scan where
  brackets : List Bracket
  mode : Mode
deriving DecidableEq

/-- Closes the innermost bracket if it is one of this kind. -/
def Scan.close (scan : Scan) (bracket : Bracket) : Option Scan :=
  if scan.brackets.head? = some bracket then some ⟨scan.brackets.tail, .outside false⟩ else none

/-- Out of strings there is no `i`, and `a` follows `f`. -/
def Scan.next (scan : Scan) (char : Char) : Option Scan :=
  match scan.mode with
  | .quoted =>
      if char = '"' then some { scan with mode := .outside false }
      else if char = '\\' then some { scan with mode := .escaped }
      else some scan
  | .escaped => some { scan with mode := .quoted }
  | .outside afterF =>
      if char = '"' then some { scan with mode := .quoted }
      else if char = '[' then some ⟨.square :: scan.brackets, .outside false⟩
      else if char = '{' then some ⟨.curly :: scan.brackets, .outside false⟩
      else if char = ']' then scan.close .square
      else if char = '}' then scan.close .curly
      else if char = 'i' ∨ char = 'a' ∧ afterF = false then none
      else some { scan with mode := .outside (char = 'f') }

def Scan.run (scan : Scan) (text : List Char) : Option Scan := text.foldlM Scan.next scan

theorem Scan.run_append (scan : Scan) (text rest : List Char) :
    scan.run (text ++ rest) = (scan.run text).bind fun scan => scan.run rest :=
  List.foldlM_append

/-- Scans come from outside of strings through the text and change the open brackets. -/
def Moves (start last : List Bracket) (text : List Char) : Prop :=
  ∀ afterF, ∃ afterF', Scan.run ⟨start, .outside afterF⟩ text = some ⟨last, .outside afterF'⟩

/-- Scans do not come from outside of strings through the text. -/
def Stops (start : List Bracket) (text : List Char) : Prop :=
  ∀ afterF, Scan.run ⟨start, .outside afterF⟩ text = none

variable {start middle last : List Bracket}

theorem Moves.append (first : Moves start middle text) (second : Moves middle last rest) :
    Moves start last (text ++ rest) := by
  intro afterF
  obtain ⟨afterF, first⟩ := first afterF
  obtain ⟨afterF', second⟩ := second afterF
  exact ⟨afterF', by rw [Scan.run_append, first, Option.bind_some, second]⟩

theorem Moves.stops (first : Moves start middle text) (second : Stops middle rest) :
    Stops start (text ++ rest) := by
  intro afterF
  obtain ⟨afterF, first⟩ := first afterF
  rw [Scan.run_append, first, Option.bind_some, second]

theorem Stops.append (stops : Stops start text) (rest : List Char) :
    Stops start (text ++ rest) := by
  intro afterF
  rw [Scan.run_append, stops, Option.bind_none]

/-- Outside of strings nothing happens at the character. -/
def Quiet (char : Char) : Prop := char ∉ "\"[]\x7b\x7dia".toList

instance : DecidablePred Quiet := fun _ => inferInstanceAs (Decidable (_ ∉ _))

theorem moves_nil (brackets : List Bracket) : Moves brackets brackets [] :=
  fun afterF => ⟨afterF, rfl⟩

theorem moves_of_quiet (brackets : List Bracket) (quiet : ∀ char ∈ text, Quiet char) :
    Moves brackets brackets text := by
  induction text with
  | nil => exact moves_nil brackets
  | cons char text ih =>
      have here := quiet char List.mem_cons_self
      simp only [Quiet, String.reduceToList, List.mem_cons, List.not_mem_nil, or_false,
        not_or] at here
      have first : Moves brackets brackets [char] :=
        fun afterF => ⟨char = 'f', by simp [Scan.run, Scan.next, here]⟩
      exact first.append (ih fun other inside => quiet other (List.mem_cons_of_mem char inside))

/-- Characters of a string leave a scan in the string. -/
theorem run_of_plain {chars : List Char} (plain : ∀ char ∈ chars, Plain char)
    (brackets : List Bracket) :
    Scan.run ⟨brackets, .quoted⟩ chars = some ⟨brackets, .quoted⟩ := by
  induction chars with
  | nil => rfl
  | cons char chars ih =>
      have here := plain char List.mem_cons_self
      have next : Scan.next ⟨brackets, .quoted⟩ char = some ⟨brackets, .quoted⟩ := by
        simp [Scan.next, here.1, here.2.1]
      rw [Scan.run, List.foldlM_cons, next]
      exact ih fun other inside => plain other (List.mem_cons_of_mem char inside)

theorem Characters.run {chars : List Char} (characters : Characters chars)
    (brackets : List Bracket) :
    Scan.run ⟨brackets, .quoted⟩ chars = some ⟨brackets, .quoted⟩ := by
  induction characters with
  | nil => rfl
  | @plain char rest plain _ ih =>
      have first : Scan.run ⟨brackets, .quoted⟩ [char] = some ⟨brackets, .quoted⟩ :=
        run_of_plain (by simpa using plain) brackets
      rw [← List.singleton_append, Scan.run_append, first]
      exact ih
  | escape _ _ ih => exact ih
  | @unicode digits rest _ hexadecimal _ ih =>
      have plain : ∀ char ∈ "0123456789abcdefABCDEF".toList, Plain char := by decide
      change Scan.run ⟨brackets, .quoted⟩ (digits ++ rest) = _
      rw [Scan.run_append, run_of_plain fun digit inside => plain digit (hexadecimal digit inside)]
      exact ih

theorem Characters.moves {chars : List Char} (characters : Characters chars)
    (brackets : List Bracket) : Moves brackets brackets ('"' :: (chars ++ ['"'])) := by
  intro afterF
  change ∃ afterF', Scan.run ⟨brackets, .quoted⟩ (chars ++ ['"']) = _
  rw [Scan.run_append, characters.run]
  exact ⟨false, rfl⟩

theorem quiet_of_isSpace {char : Char} (space : IsSpace char) : Quiet char := by
  have quiet : ∀ char ∈ [' ', '\t', '\n', '\r'], Quiet char := by decide
  exact quiet char space

theorem quiet_of_isDigit {char : Char} (digit : char.isDigit) : Quiet char := by
  intro loud
  have others : ∀ char ∈ "\"[]\x7b\x7dia".toList, char.isDigit = false := by decide
  rw [others char loud] at digit
  cases digit

theorem IsNumber.quiet (number : IsNumber text) : ∀ char ∈ text, Quiet char := by
  have minusSign : ∀ sign ∈ [[], ['-']], ∀ char ∈ sign, Quiet char := by decide
  have sign : ∀ sign ∈ [[], ['+'], ['-']], ∀ char ∈ sign, Quiet char := by decide
  have marks : ∀ mark ∈ ['e', 'E'], Quiet mark := by decide
  have digits : ∀ {digits}, Digits digits → ∀ char ∈ digits, Quiet char :=
    fun digits char inside => quiet_of_isDigit (digits.2 char inside)
  obtain ⟨minus, isMinus, whole, fraction, exponent, isWhole, isFraction, isExponent, rfl⟩ :=
    number.parts
  intro char inside
  simp only [List.mem_append] at inside
  rcases inside with inside | inside | inside | inside
  · exact minusSign minus isMinus char inside
  · rcases isWhole with rfl | ⟨isDigits, _⟩
    · rw [List.mem_singleton.mp inside]
      decide
    · exact digits isDigits char inside
  · rcases isFraction with rfl | ⟨after, isDigits, rfl⟩
    · cases inside
    · rcases List.mem_cons.mp inside with rfl | inside
      · decide
      · exact digits isDigits char inside
  · rcases isExponent with rfl | ⟨mark, isMark, plus, isSign, after, isDigits, rfl⟩
    · cases inside
    · rcases List.mem_cons.mp inside with rfl | inside
      · exact marks char isMark
      · rcases List.mem_append.mp inside with inside | inside
        · exact sign plus isSign char inside
        · exact digits isDigits char inside

theorem moves_left (bracket : Bracket) (brackets : List Bracket) :
    Moves brackets (bracket :: brackets) [bracket.left] := by
  cases bracket <;> exact fun afterF => ⟨false, rfl⟩

theorem moves_right (bracket : Bracket) (brackets : List Bracket) :
    Moves (bracket :: brackets) brackets [bracket.right] := by
  cases bracket <;> exact fun afterF => ⟨false, rfl⟩

/-- Another bracket is open, or none. -/
theorem stops_right {bracket : Bracket} {brackets : List Bracket}
    (other : brackets.head? ≠ some bracket) : Stops brackets [bracket.right] := by
  have fails : ∀ mode, Scan.close ⟨brackets, mode⟩ bracket = none := fun _ => if_neg other
  intro afterF
  cases bracket <;> simpa [Scan.run, Scan.next, Bracket.right] using fails _

/-- A bracket that opens, a text and the bracket that closes. -/
theorem Moves.enclosed {bracket : Bracket} {brackets : List Bracket}
    (inner : Moves (bracket :: brackets) (bracket :: brackets) text) :
    Moves brackets brackets (bracket.left :: (text ++ [bracket.right])) :=
  (moves_left bracket brackets).append (inner.append (moves_right bracket brackets))

/-- A scan comes through each text of the grammar. -/
theorem Renders.moves {node : Node} (renders : Renders node text) (brackets : List Bracket) :
    Moves brackets brackets text := by
  have blank : ∀ {spaces : List Char}, (∀ char ∈ spaces, IsSpace char) → ∀ brackets,
      Moves brackets brackets spaces := fun blank brackets =>
    moves_of_quiet brackets fun char inside => quiet_of_isSpace (blank char inside)
  induction renders generalizing brackets with
  | @spaceBefore value char text space _ ih =>
      have first : Moves brackets brackets [char] := blank (by simpa using space) brackets
      exact first.append (ih brackets)
  | spaceAfter space _ ih => exact (ih brackets).append (blank (by simpa using space) brackets)
  | literal word =>
      simp only [List.mem_cons, List.not_mem_nil, or_false] at word
      rcases word with rfl | rfl | rfl <;> exact fun afterF => ⟨false, rfl⟩
  | number number => exact moves_of_quiet brackets number.quiet
  | string characters => exact characters.moves brackets
  | array _ ih => exact (ih (.square :: brackets)).enclosed
  | object _ ih => exact (ih (.curly :: brackets)).enclosed
  | element _ ih => exact ih brackets
  | @member key value text before after characters isBefore isAfter _ ih =>
      have colon : Moves brackets brackets [':'] := moves_of_quiet brackets (by decide)
      have whole := (blank isBefore brackets).append ((characters.moves brackets).append
        ((blank isAfter brackets).append (colon.append (ih brackets))))
      simpa only [List.append_assoc, List.cons_append, List.nil_append] using whole
  | empty isSpaces => exact blank isSpaces brackets
  | single _ ih => exact ih brackets
  | more _ _ ih ihs =>
      have comma : Moves brackets brackets [','] := moves_of_quiet brackets (by decide)
      exact (ih brackets).append (comma.append (ihs brackets))

theorem not_renders_of_stops (stops : Stops [] text) (value : Value) :
    ¬ Renders (.value value) text := by
  intro renders
  obtain ⟨afterF, moves⟩ := renders.moves [] false
  rw [stops] at moves
  cases moves

end HandsOn.Semantics.Json
