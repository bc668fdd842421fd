import HandsOn.Semantics.Json
import Mathlib.Tactic.IntervalCases

/-!
# The output as JSON

The functions of `ior-output.c` write to `out_resultfile`, here with `outputFormat` JSON, and keep
an indentation and whether a comma is due. What they write after one another are entries of a
sequence, with the commas between them, however the functions are composed.
-/

namespace HandsOn.Ior

open Semantics Semantics.Json

/-- The variables of `ior-output.c`. -/
structure Layout where
  indent : Int
  needNextToken : Bool
deriving DecidableEq

/-- What a function writes, and how it leaves the variables. -/
abbrev Print := Layout → List Char × Layout

/-- `fprintf(out_resultfile, ...)` -/
def write (text : List Char) : Print := fun layout => (text, layout)

def setNeedNextToken (need : Bool) : Print := fun layout =>
  ([], { layout with needNextToken := need })

def moveIndent (step : Int) : Print := fun layout =>
  ([], { layout with indent := layout.indent + step })

def Print.andThen (first second : Print) : Print := fun layout =>
  ((first layout).1 ++ (second (first layout).2).1, (second (first layout).2).2)

/-- One after another. -/
def prints : List Print → Print
  | [] => write []
  | print :: rest => print.andThen (prints rest)

/-- The texts of a double: `%.4f` rounds to ten-thousandths. -/
inductive Figure where
  | finite (negative : Bool) (tenThousandths : ℕ)
  | infinite (negative : Bool)
  | nan (negative : Bool)
deriving DecidableEq

def sign (negative : Bool) : List Char := if negative then ['-'] else []

/-- The digits after the point. -/
def decimals (tenThousandths : ℕ) : List Char :=
  [1000, 100, 10, 1].map fun place => Nat.digitChar (tenThousandths / place % 10)

namespace Figure

/-- `%.4f` -/
def text : Figure → List Char
  | finite negative tenThousandths =>
      sign negative ++ (Nat.toDigits 10 (tenThousandths / 10000) ++ '.' :: decimals tenThousandths)
  | infinite negative => sign negative ++ "inf".toList
  | nan negative => sign negative ++ "nan".toList

def Finite : Figure → Prop
  | finite _ _ => True
  | _ => False

instance : DecidablePred Finite := fun figure => by
  cases figure <;> unfold Finite <;> infer_instance

end Figure

/-- `%lld` -/
def longDecimal (value : Int) : List Char :=
  sign (value < 0) ++ Nat.toDigits 10 value.natAbs

/-! ### The functions -/

def printIndent : Print := fun layout =>
  (List.replicate (2 * layout.indent.toNat) ' ', layout)

def printNextToken : Print := fun layout =>
  if layout.needNextToken then
    prints [setNeedNextToken false, write ", \n".toList, printIndent] layout
  else printIndent layout

def printKeyValStart (key : List Char) : Print :=
  prints [printNextToken, write ('"' :: (key ++ "\": \"".toList))]

def printKeyValEnd : Print := prints [write ['"'], setNeedNextToken true]

/-- A text without the newline at its end; `%s` of `NULL` is `(null)`. -/
def shown : Option (List Char) → List Char
  | none => "(null)".toList
  | some value => if value.getLast? = some '\n' then value.dropLast else value

def printKeyVal (key : List Char) (value : Option (List Char)) : Print :=
  prints [printNextToken, setNeedNextToken true,
    write ('"' :: (key ++ ("\": \"".toList ++ (shown value ++ ['"']))))]

def printKeyValDouble (key : List Char) (value : Figure) : Print :=
  prints [printNextToken, setNeedNextToken true,
    write ('"' :: (key ++ ("\": ".toList ++ value.text)))]

def printKeyValInt (key : List Char) (value : Int) : Print :=
  prints [printNextToken, setNeedNextToken true,
    write ('"' :: (key ++ ("\": ".toList ++ longDecimal value)))]

def printStartSection : Print :=
  prints [printNextToken, setNeedNextToken false, printIndent, write "\x7b\n".toList, moveIndent 1]

def printNamedSectionStart (key : List Char) : Print :=
  prints [printNextToken, setNeedNextToken false, moveIndent 1,
    write ('"' :: (key ++ "\": \x7b\n".toList))]

def printNamedArrayStart (key : List Char) : Print :=
  prints [printNextToken, setNeedNextToken false, moveIndent 1,
    write ('"' :: (key ++ "\": [\n".toList))]

def printEndSection : Print :=
  prints [moveIndent (-1), write ['\n'], printIndent, write "\x7d\n".toList, setNeedNextToken true]

def printArrayStart : Print :=
  prints [printNextToken, setNeedNextToken false, write "[ ".toList]

/-- The indentation stays, though the end of an array moves it back. -/
def printArrayNamedStart (key : List Char) : Print :=
  prints [printNextToken, setNeedNextToken false, write ('"' :: (key ++ "\": [\n".toList))]

def printArrayEnd : Print :=
  prints [moveIndent (-1), write "]\n".toList, setNeedNextToken true]

/-! ### Fields -/

/-- What `PrintKeyVal`, `PrintKeyValInt` and `PrintKeyValDouble` print. -/
inductive Scalar where
  | text (value : Option (List Char))
  | int (value : Int)
  | double (value : Figure)

abbrev Field := List Char × Scalar

def printField : Field → Print
  | (key, .text value) => printKeyVal key value
  | (key, .int value) => printKeyValInt key value
  | (key, .double value) => printKeyValDouble key value

def printFields (fields : List Field) : Print := prints (fields.map printField)

def Scalar.value : Scalar → Value
  | text value => .string (shown value)
  | int value => .number (longDecimal value)
  | double value => .number value.text

def Field.member (field : Field) : List Char × Value := (field.1, field.2.value)

/-- Nothing in the text has to be escaped. -/
def PlainText (text : List Char) : Prop := ∀ char ∈ text, Json.Plain char

instance : DecidablePred PlainText := fun text =>
  inferInstanceAs (Decidable (∀ char ∈ text, Json.Plain char))

def Scalar.Plain : Scalar → Prop
  | text value => PlainText (shown value)
  | _ => True

@[simp] theorem Scalar.plain_text (value : Option (List Char)) :
    (Scalar.text value).Plain ↔ PlainText (shown value) := Iff.rfl

@[simp] theorem Scalar.plain_int (value : Int) : (Scalar.int value).Plain := trivial

@[simp] theorem Scalar.plain_double (value : Figure) : (Scalar.double value).Plain := trivial

def Field.Plain (field : Field) : Prop := PlainText field.1 ∧ field.2.Plain

def Field.Finite (field : Field) : Prop :=
  match field.2 with
  | .double value => value.Finite
  | _ => True

instance : DecidablePred Field.Finite := fun field => by
  unfold Field.Finite
  split <;> infer_instance

@[simp] theorem Field.finite_text (key : List Char) (value : Option (List Char)) :
    Field.Finite (key, .text value) := trivial

@[simp] theorem Field.finite_int (key : List Char) (value : Int) :
    Field.Finite (key, .int value) := trivial

/-! ### Plain texts -/

theorem PlainText.append {text rest : List Char} (plain : PlainText text)
    (others : PlainText rest) : PlainText (text ++ rest) :=
  fun char inside => (List.mem_append.mp inside).elim (plain char) (others char)

theorem PlainText.cons {char : Char} {text : List Char} (plain : Json.Plain char)
    (others : PlainText text) : PlainText (char :: text) :=
  fun _ inside => (List.mem_cons.mp inside).elim (fun same => same ▸ plain) (others _)

theorem PlainText.shown {text : List Char} (plain : PlainText text) :
    PlainText (shown (some text)) := by
  change PlainText (if text.getLast? = some '\n' then text.dropLast else text)
  split
  · exact fun char inside => plain char (List.dropLast_subset text inside)
  · exact plain

theorem plainText_longDecimal (value : Int) : PlainText (longDecimal value) := by
  have digits : ∀ char : Char, char.isDigit → Json.Plain char := by
    intro char digit
    have range : 48 ≤ char.toNat ∧ char.toNat ≤ 57 := Char.isDigit_iff_toNat.mp digit
    refine ⟨?_, ?_, by omega⟩ <;> rintro rfl <;> revert range <;> decide
  apply PlainText.append
  · cases decide (value < 0) <;> decide
  · intro char inside
    exact digits char (Nat.isDigit_of_mem_toDigits (by decide) (by decide) inside)

def PlainFields (fields : List Field) : Prop := ∀ field ∈ fields, field.Plain

theorem plainFields_of {fields : List Field}
    (keys : (fields.map Prod.fst).all (fun key => decide (PlainText key)) = true)
    (texts : ∀ field ∈ fields, field.2.Plain) : PlainFields fields := by
  intro field inside
  have plain := List.all_eq_true.mp keys field.1 (List.mem_map_of_mem inside)
  exact ⟨of_decide_eq_true plain, texts field inside⟩

theorem PlainFields.append {fields others : List Field} (plain : PlainFields fields)
    (more : PlainFields others) : PlainFields (fields ++ others) :=
  fun field inside => (List.mem_append.mp inside).elim (plain field) (more field)

theorem plainFields_ite {condition : Prop} [Decidable condition] {fields : List Field}
    (plain : PlainFields fields) : PlainFields (if condition then fields else []) := by
  split
  · exact plain
  · exact List.forall_mem_nil _

/-! ### Composition -/

theorem Print.andThen_assoc (first second third : Print) :
    (first.andThen second).andThen third = first.andThen (second.andThen third) := by
  funext layout
  simp [Print.andThen]

theorem Print.andThen_nil (print : Print) : print.andThen (write []) = print := by
  funext layout
  simp [Print.andThen, write]

theorem Print.nil_andThen (print : Print) : (write []).andThen print = print := rfl

/-- Two texts next to one another are one. -/
theorem Print.write_andThen (text rest : List Char) (print : Print) :
    (write text).andThen ((write rest).andThen print) = (write (text ++ rest)).andThen print := by
  funext layout
  simp [Print.andThen, write]

theorem prints_append (calls others : List Print) :
    prints (calls ++ others) = (prints calls).andThen (prints others) := by
  induction calls with
  | nil => rfl
  | cons print calls ih => rw [List.cons_append, prints, ih, prints, Print.andThen_assoc]

/-- Calls that are grouped. -/
theorem prints_flatMap {Item : Type} (items : List Item) (calls : Item → List Print) :
    prints (items.map fun item => prints (calls item)) = prints (items.flatMap calls) := by
  induction items with
  | nil => rfl
  | cons item items ih => rw [List.map_cons, prints, ih, List.flatMap_cons, prints_append]

theorem prints_write {Item : Type} (items : List Item) (text : Item → List Char) :
    prints (items.map fun item => write (text item)) = write (items.flatMap text) := by
  induction items with
  | nil => rfl
  | cons item items ih =>
      rw [List.map_cons, prints, ih, List.flatMap_cons]
      rfl

/-! ### Numbers -/

theorem whole_toDigits (number : ℕ) : Whole (Nat.toDigits 10 number) := by
  rcases Nat.eq_zero_or_pos number with rfl | positive
  · exact .inl (Nat.toDigits_zero 10)
  right
  constructor
  · exact ⟨Nat.toDigits_ne_nil, fun _ inside =>
      Nat.isDigit_of_mem_toDigits (by decide) (by decide) inside⟩
  -- the digits in front of the last one are those of the quotient
  induction number using Nat.strong_induction_on with
  | _ number ih =>
    rcases Nat.lt_or_ge number 10 with small | large
    · rw [Nat.toDigits_of_lt_base small]
      clear ih
      interval_cases number <;> decide
    · rw [Nat.toDigits_of_base_le (by decide) large,
        List.head?_append_of_ne_nil _ Nat.toDigits_ne_nil]
      exact ih (number / 10) (by omega) (by omega)

theorem sign_mem (negative : Bool) : sign negative ∈ [[], ['-']] := by
  cases negative <;> decide

theorem isNumber_longDecimal (value : Int) : IsNumber (longDecimal value) := by
  refine ⟨_, sign_mem (value < 0), _, [], [], whole_toDigits value.natAbs, .inl rfl, .inl rfl, ?_⟩
  simp [longDecimal]

theorem digits_decimals (tenThousandths : ℕ) : Digits (decimals tenThousandths) := by
  refine ⟨List.cons_ne_nil _ _, fun char inside => ?_⟩
  obtain ⟨place, _, rfl⟩ := List.mem_map.mp inside
  rw [Nat.isDigit_digitChar]
  exact decide_eq_true (Nat.mod_lt _ (by decide))

theorem Figure.isNumber {figure : Figure} (finite : figure.Finite) : IsNumber figure.text := by
  cases figure with
  | infinite => exact finite.elim
  | nan => exact finite.elim
  | finite negative tenThousandths =>
      refine ⟨_, sign_mem negative, _, _, [], whole_toDigits (tenThousandths / 10000),
        .inr ⟨_, digits_decimals tenThousandths, rfl⟩, .inl rfl, ?_⟩
      rw [List.append_nil]
      rfl

/-- What is not a number is not JSON. -/
theorem Figure.stops {figure : Figure} (infinite : ¬ figure.Finite) (brackets : List Bracket)
    (rest : List Char) : Stops brackets (figure.text ++ rest) := by
  apply Stops.append
  intro afterF
  cases figure with
  | finite => exact absurd trivial infinite
  | infinite negative => cases negative <;> rfl
  | nan negative => cases negative <;> cases afterF <;> rfl

/-! ### Entries -/

/-- The text continues a sequence with the entries, after a comma if it is due. -/
def Follows (need : Bool) : List Entry → List Char → Prop
  | [], text => text = []
  | entry :: entries, text => ∃ rest, Renders (.sequence (entry :: entries)) rest ∧
      text = if need then ',' :: rest else rest

theorem Follows.append {need : Bool} {entries others : List Entry} {text more : List Char}
    (first : Follows need entries text) (second : Follows (need || !entries.isEmpty) others more) :
    Follows need (entries ++ others) (text ++ more) := by
  cases entries with
  | nil =>
      obtain rfl : text = [] := first
      rw [List.isEmpty_nil, Bool.not_true, Bool.or_false] at second
      exact second
  | cons entry entries =>
      rw [List.isEmpty_cons, Bool.not_false, Bool.or_true] at second
      cases others with
      | nil =>
          obtain rfl : more = [] := second
          rw [List.append_nil, List.append_nil]
          exact first
      | cons other others =>
          obtain ⟨left, first, rfl⟩ := first
          obtain ⟨right, second, rfl⟩ := second
          refine ⟨_, first.append second (List.cons_ne_nil _ _) (List.cons_ne_nil _ _), ?_⟩
          cases need <;> rfl

theorem Follows.after {need : Bool} {entries : List Entry} {text spaces : List Char}
    (follows : Follows need entries text) (some : entries ≠ [])
    (blank : ∀ char ∈ spaces, IsSpace char) : Follows need entries (text ++ spaces) := by
  obtain ⟨entry, entries, rfl⟩ := List.exists_cons_of_ne_nil some
  obtain ⟨rest, renders, rfl⟩ := follows
  refine ⟨rest ++ spaces, renders.after blank, ?_⟩
  cases need <;> rfl

theorem Follows.renders {entries : List Entry} {text : List Char}
    (follows : Follows false entries text) : Renders (.sequence entries) text := by
  cases entries with
  | nil =>
      obtain rfl : text = [] := follows
      exact .empty fun _ inside => absurd inside List.not_mem_nil
  | cons entry entries =>
      obtain ⟨rest, renders, rfl⟩ := follows
      exact renders

theorem Follows.moves {need : Bool} {entries : List Entry} {text : List Char}
    (follows : Follows need entries text) (brackets : List Bracket) :
    Moves brackets brackets text := by
  cases entries with
  | nil =>
      obtain rfl : text = [] := follows
      exact moves_nil brackets
  | cons entry entries =>
      obtain ⟨rest, renders, rfl⟩ := follows
      have comma : Moves brackets brackets [','] := moves_of_quiet brackets (by decide)
      cases need with
      | false => exact renders.moves brackets
      | true => exact comma.append (renders.moves brackets)

/-- The function writes entries of a sequence. -/
structure Appends (print : Print) (entries : List Entry) : Prop where
  text : ∀ layout, Follows layout.needNextToken entries (print layout).1
  need : ∀ layout, (print layout).2.needNextToken = (layout.needNextToken || !entries.isEmpty)

variable {print first second : Print} {entries others : List Entry}

theorem appends_nil : Appends (prints []) [] where
  text _ := rfl
  need layout := (Bool.or_false layout.needNextToken).symm

theorem Appends.andThen (left : Appends first entries) (right : Appends second others) :
    Appends (first.andThen second) (entries ++ others) where
  text layout := (left.text layout).append (left.need layout ▸ right.text _)
  need layout := by
    change (second (first layout).2).2.needNextToken = _
    rw [right.need, left.need, Bool.or_assoc]
    cases entries <;> rfl

/-- Entries with a comma that is written by hand, after others. -/
theorem Appends.byHand {spaces text : List Char} (appends : Appends print entries)
    (some : entries ≠ []) (blank : ∀ char ∈ spaces, IsSpace char)
    (renders : Renders (.sequence others) text) (more : others ≠ []) :
    Appends (prints [print, write (spaces ++ ',' :: text)]) (entries ++ others) := by
  have due : ∀ need : Bool, (need || !entries.isEmpty) = true := by
    obtain ⟨entry, entries, rfl⟩ := List.exists_cons_of_ne_nil some
    exact Bool.or_true
  constructor
  · intro layout
    have first : Follows layout.needNextToken entries ((print layout).1 ++ spaces) :=
      (appends.text layout).after some blank
    have second : Follows (layout.needNextToken || !entries.isEmpty) others (',' :: text) := by
      obtain ⟨other, others, rfl⟩ := List.exists_cons_of_ne_nil more
      rw [due]
      exact ⟨text, renders, rfl⟩
    simpa [prints, Print.andThen, write] using first.append second
  · intro layout
    change (print layout).2.needNextToken = _
    rw [appends.need, due, List.isEmpty_eq_false_iff.mpr (List.append_ne_nil_of_left_ne_nil some _)]
    exact (Bool.or_true _).symm

theorem appends_map {Item : Type} {items : List Item} {call : Item → Print}
    {entry : Item → Entry} (each : ∀ item ∈ items, Appends (call item) [entry item]) :
    Appends (prints (items.map call)) (items.map entry) := by
  induction items with
  | nil => exact appends_nil
  | cons item items ih =>
      exact (each item List.mem_cons_self).andThen
        (ih fun other inside => each other (List.mem_cons_of_mem item inside))

/-! ### Fields -/

/-- The text is blank. -/
def Blank (text : List Char) : Prop := ∀ char ∈ text, IsSpace char

instance : DecidablePred Blank := fun text =>
  inferInstanceAs (Decidable (∀ char ∈ text, IsSpace char))

theorem printIndent_blank (layout : Layout) : Blank (printIndent layout).1 := by
  intro char inside
  rw [List.eq_of_mem_replicate inside]
  decide

theorem Blank.cons {text : List Char} {char : Char} (space : IsSpace char) (blank : Blank text) :
    Blank (char :: text) := by
  rintro other (_ | ⟨_, inside⟩)
  · exact space
  · exact blank other inside

theorem printNextToken_eq (layout : Layout) : ∃ spaces, Blank spaces ∧
    printNextToken layout = (if layout.needNextToken then ',' :: spaces else spaces,
      { layout with needNextToken := false }) := by
  obtain ⟨indent, need⟩ := layout
  cases need with
  | false => exact ⟨_, printIndent_blank _, rfl⟩
  | true =>
      refine ⟨' ' :: '\n' :: ((printIndent ⟨indent, false⟩).1 ++ []), ?_, rfl⟩
      rw [List.append_nil]
      exact ((printIndent_blank _).cons (by decide)).cons (by decide)

/-- A function writes an entry if it begins with `PrintNextToken`. -/
theorem appends_entry {entry : Entry} (body : Layout → List Char)
    (renders : ∀ layout, Renders (.entry entry) (body layout))
    (text : ∀ layout, (print layout).1 = (printNextToken layout).1 ++ body layout)
    (need : ∀ layout, (print layout).2.needNextToken = true) : Appends print [entry] where
  text layout := by
    obtain ⟨spaces, blank, token⟩ := printNextToken_eq layout
    refine ⟨spaces ++ body layout, .single ((renders layout).entry_before blank), ?_⟩
    rw [text, token]
    split <;> rfl
  need layout := (need layout).trans (Bool.or_true _).symm

/-- An entry of an object with its key, or an element of an array. -/
def label : Option (List Char) → Value → Entry
  | none => .element
  | some key => .member key

/-- The key and the colon. -/
def keyText : Option (List Char) → List Char
  | none => []
  | some key => '"' :: (key ++ "\": ".toList)

theorem renders_label {key : Option (List Char)} {value : Value} {text : List Char}
    (plain : ∀ chars ∈ key, PlainText chars)
    (renders : Renders (.value value) text) :
    Renders (.entry (label key value)) (keyText key ++ text) := by
  cases key with
  | none => exact .element renders
  | some key =>
      have spaced : Renders (.value value) (' ' :: text) := .spaceBefore (by decide) renders
      have member := Renders.member (characters_of_plain (plain key rfl))
        (List.forall_mem_nil _) (List.forall_mem_nil _) spaced
      simpa [keyText, label] using member

theorem appends_keyed {key text : List Char} {value : Value}
    (plain : PlainText key) (renders : Renders (.value value) text) :
    Appends (prints [printNextToken, setNeedNextToken true, write (keyText (some key) ++ text)])
      [.member key value] := by
  apply appends_entry fun _ => keyText (some key) ++ text
  · have labelled : Renders (.entry (label (some key) value)) (keyText (some key) ++ text) := by
      refine renders_label (fun chars same => ?_) renders
      cases same
      exact plain
    exact fun _ => labelled
  · intro layout
    simp [prints, Print.andThen, setNeedNextToken, write]
  · exact fun _ => rfl

theorem appends_printField {field : Field} (plain : field.Plain) (finite : field.Finite) :
    Appends (printField field) [.member field.1 field.2.value] := by
  obtain ⟨key, scalar⟩ := field
  obtain ⟨plainKey, plainText⟩ := plain
  cases scalar with
  | text value =>
      have string := Renders.string (characters_of_plain plainText)
      simpa [printField, printKeyVal, keyText, Scalar.value] using appends_keyed plainKey string
  | int value =>
      have number := Renders.number (isNumber_longDecimal value)
      simpa [printField, printKeyValInt, keyText, Scalar.value] using appends_keyed plainKey number
  | double value =>
      have number := Renders.number (Figure.isNumber finite)
      simpa [printField, printKeyValDouble, keyText, Scalar.value] using
        appends_keyed plainKey number

theorem appends_printFields {fields : List Field} (plain : ∀ field ∈ fields, field.Plain)
    (finite : ∀ field ∈ fields, field.Finite) :
    Appends (printFields fields) ((fields.map Field.member).map fun entry =>
      .member entry.1 entry.2) := by
  rw [List.map_map]
  exact appends_map fun field inside =>
    appends_printField (plain field inside) (finite field inside)

/-! ### Sections and arrays -/

/-- The function writes a bracket that opens. -/
structure Opens (print : Print) (bracket : Bracket) (key : Option (List Char)) : Prop where
  text : ∀ layout, ∃ before after, Blank before ∧ Blank after ∧
    (print layout).1 = (printNextToken layout).1 ++
      (before ++ (keyText key ++ bracket.left :: after))
  need : ∀ layout, (print layout).2.needNextToken = false

/-- The function writes a bracket that closes. -/
structure Closes (print : Print) (bracket : Bracket) : Prop where
  text : ∀ layout, ∃ before after, Blank before ∧ Blank after ∧
    (print layout).1 = before ++ bracket.right :: after
  need : ∀ layout, (print layout).2.needNextToken = true

/-- A section or an array, from one bracket to the other. -/
theorem Appends.enclosed {opener body closer : Print} {bracket : Bracket}
    {key : Option (List Char)} {value : Value}
    (plain : ∀ chars ∈ key, PlainText chars)
    (opens : Opens opener bracket key) (closes : Closes closer bracket)
    (inner : Appends body entries) (renders : ∀ inner, Renders (.sequence entries) inner →
      Renders (.value value) (bracket.left :: (inner ++ [bracket.right]))) :
    Appends (prints [opener, body, closer]) [label key value] := by
  choose before after before_blank after_blank opening using opens.text
  choose before' after' before_blank' after_blank' closing using closes.text
  let inside layout := body (opener layout).2
  let last layout := (inside layout).2
  let content layout := after layout ++ ((inside layout).1 ++ before' (last layout))
  apply appends_entry fun layout => before layout ++ (keyText key ++
    (bracket.left :: (content layout ++ [bracket.right]) ++ after' (last layout)))
  · intro layout
    have sequence := (opens.need layout ▸ inner.text (opener layout).2).renders
    have enclosed := renders (content layout)
      ((sequence.after (before_blank' _)).before (after_blank layout))
    exact (renders_label plain (enclosed.value_after (after_blank' _))).entry_before
      (before_blank layout)
  · intro layout
    simp [prints, Print.andThen, write, opening, closing, content, inside, last]
  · exact fun layout => closes.need _

theorem opens_printStartSection : Opens printStartSection .curly none where
  text layout := by
    refine ⟨_, ['\n'], printIndent_blank ⟨(printNextToken layout).2.indent, false⟩, by decide, ?_⟩
    simp [printStartSection, prints, Print.andThen, setNeedNextToken, write, moveIndent, keyText,
      Bracket.left]
  need _ := rfl

theorem opens_printNamedSectionStart (key : List Char) :
    Opens (printNamedSectionStart key) .curly (some key) where
  text layout := by
    refine ⟨[], ['\n'], by decide, by decide, ?_⟩
    simp [printNamedSectionStart, prints, Print.andThen, setNeedNextToken, write, moveIndent,
      keyText, Bracket.left]
  need _ := rfl

theorem opens_printNamedArrayStart (key : List Char) :
    Opens (printNamedArrayStart key) .square (some key) where
  text layout := by
    refine ⟨[], ['\n'], by decide, by decide, ?_⟩
    simp [printNamedArrayStart, prints, Print.andThen, setNeedNextToken, write, moveIndent, keyText,
      Bracket.left]
  need _ := rfl

theorem opens_printArrayStart : Opens printArrayStart .square none where
  text layout := by
    refine ⟨[], [' '], by decide, by decide, ?_⟩
    simp [printArrayStart, prints, Print.andThen, setNeedNextToken, write, keyText, Bracket.left]
  need _ := rfl

theorem opens_printArrayNamedStart (key : List Char) :
    Opens (printArrayNamedStart key) .square (some key) where
  text layout := by
    refine ⟨[], ['\n'], by decide, by decide, ?_⟩
    simp [printArrayNamedStart, prints, Print.andThen, setNeedNextToken, write, keyText,
      Bracket.left]
  need _ := rfl

theorem closes_printEndSection : Closes printEndSection .curly where
  text layout := by
    refine ⟨_, ['\n'], (printIndent_blank ⟨layout.indent + -1, layout.needNextToken⟩).cons
      (by decide : IsSpace '\n'), by decide, ?_⟩
    simp [printEndSection, prints, Print.andThen, setNeedNextToken, write, moveIndent,
      Bracket.right]
  need _ := rfl

theorem closes_printArrayEnd : Closes printArrayEnd .square where
  text layout := by
    refine ⟨[], ['\n'], by decide, by decide, ?_⟩
    simp [printArrayEnd, prints, Print.andThen, setNeedNextToken, write, moveIndent, Bracket.right]
  need _ := rfl

/-! ### Brackets -/

/-- The function writes what changes the open brackets from `start` to `last`. -/
def Scans (print : Print) (start last : List Bracket) : Prop :=
  ∀ layout, Moves start last (print layout).1

/-- The function writes what does not go on in JSON with the brackets that are open. -/
def Halts (print : Print) (start : List Bracket) : Prop := ∀ layout, Stops start (print layout).1

variable {start middle last : List Bracket}

theorem Scans.andThen (left : Scans first start middle) (right : Scans second middle last) :
    Scans (first.andThen second) start last :=
  fun layout => (left layout).append (right _)

theorem Scans.halts (left : Scans first start middle) (right : Halts second middle) :
    Halts (first.andThen second) start :=
  fun layout => (left layout).stops (right _)

theorem Halts.andThen (left : Halts first start) (second : Print) :
    Halts (first.andThen second) start :=
  fun layout => (left layout).append _

theorem scans_nil (brackets : List Bracket) : Scans (prints []) brackets brackets :=
  fun _ => moves_nil brackets

theorem Appends.scans (appends : Appends print entries) (brackets : List Bracket) :
    Scans print brackets brackets :=
  fun layout => (appends.text layout).moves brackets

theorem Blank.moves {text : List Char} (blank : Blank text) (brackets : List Bracket) :
    Moves brackets brackets text :=
  moves_of_quiet brackets fun char inside => quiet_of_isSpace (blank char inside)

theorem printNextToken_scans (brackets : List Bracket) :
    Scans printNextToken brackets brackets := by
  intro layout
  obtain ⟨spaces, blank, token⟩ := printNextToken_eq layout
  have comma : Moves brackets brackets [','] := moves_of_quiet brackets (by decide)
  rw [token]
  split
  · exact comma.append (blank.moves brackets)
  · exact blank.moves brackets

theorem keyText_moves {key : Option (List Char)}
    (plain : ∀ chars ∈ key, PlainText chars) (brackets : List Bracket) :
    Moves brackets brackets (keyText key) := by
  cases key with
  | none => exact moves_nil brackets
  | some key =>
      have quoted := (characters_of_plain (plain key rfl)).moves brackets
      have colon : Moves brackets brackets [':', ' '] := moves_of_quiet brackets (by decide)
      simpa [keyText] using quoted.append colon

theorem Opens.scans {bracket : Bracket} {key : Option (List Char)}
    (opens : Opens print bracket key) (plain : ∀ chars ∈ key, PlainText chars)
    (brackets : List Bracket) : Scans print brackets (bracket :: brackets) := by
  intro layout
  obtain ⟨before, after, blank, blank', text⟩ := opens.text layout
  rw [text]
  apply (printNextToken_scans brackets layout).append
  apply (blank.moves brackets).append
  apply (keyText_moves plain brackets).append
  exact (moves_left bracket brackets).append (blank'.moves _)

theorem Closes.scans {bracket : Bracket} (closes : Closes print bracket)
    (brackets : List Bracket) : Scans print (bracket :: brackets) brackets := by
  intro layout
  obtain ⟨before, after, blank, blank', text⟩ := closes.text layout
  rw [text]
  apply (blank.moves _).append
  exact (moves_right bracket brackets).append (blank'.moves brackets)

theorem Closes.halts {bracket : Bracket} (closes : Closes print bracket)
    {brackets : List Bracket} (other : brackets.head? ≠ some bracket) : Halts print brackets := by
  intro layout
  obtain ⟨before, after, blank, _, text⟩ := closes.text layout
  rw [text]
  exact (blank.moves brackets).stops ((stops_right other).append after)

theorem scans_map {Item : Type} {items : List Item} {call : Item → Print}
    {brackets : List Bracket} (each : ∀ item ∈ items, Scans (call item) brackets brackets) :
    Scans (prints (items.map call)) brackets brackets := by
  induction items with
  | nil => exact scans_nil brackets
  | cons item items ih =>
      exact (each item List.mem_cons_self).andThen
        (ih fun other inside => each other (List.mem_cons_of_mem item inside))

/-- The first call that does not go on in JSON ends it. -/
theorem halts_map {Item : Type} {items : List Item} {call : Item → Print}
    {brackets : List Bracket} (good : Item → Prop)
    (each : ∀ item ∈ items, good item → Scans (call item) brackets brackets)
    (halts : ∀ item ∈ items, ¬ good item → Halts (call item) brackets)
    (bad : ¬ ∀ item ∈ items, good item) : Halts (prints (items.map call)) brackets := by
  induction items with
  | nil => exact absurd (List.forall_mem_nil _) bad
  | cons item items ih =>
      by_cases here : good item
      · apply (each item List.mem_cons_self here).halts
        apply ih (fun other inside => each other (List.mem_cons_of_mem item inside))
          fun other inside => halts other (List.mem_cons_of_mem item inside)
        exact fun others => bad (List.forall_mem_cons.mpr ⟨here, others⟩)
      · exact (halts item List.mem_cons_self here).andThen _

theorem halts_printField {field : Field} (plain : field.Plain) (infinite : ¬ field.Finite)
    (brackets : List Bracket) : Halts (printField field) brackets := by
  obtain ⟨key, scalar⟩ := field
  cases scalar with
  | text => exact absurd trivial infinite
  | int => exact absurd trivial infinite
  | double value =>
      intro layout
      have labels : Moves brackets brackets (keyText (some key)) := by
        refine keyText_moves (fun chars same => ?_) brackets
        cases same
        exact plain.1
      have stops := (printNextToken_scans brackets layout).stops
        (labels.stops (Figure.stops infinite brackets []))
      simpa [printField, printKeyValDouble, prints, Print.andThen, setNeedNextToken, write,
        keyText] using stops

theorem halts_printFields {fields : List Field} (plain : ∀ field ∈ fields, field.Plain)
    (infinite : ¬ ∀ field ∈ fields, field.Finite) (brackets : List Bracket) :
    Halts (printFields fields) brackets :=
  halts_map Field.Finite
    (fun field inside finite => (appends_printField (plain field inside) finite).scans brackets)
    (fun field inside => (halts_printField (plain field inside) · brackets)) infinite

end HandsOn.Ior
