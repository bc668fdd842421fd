import HandsOn.Ior.Report

/-!
# The report is JSON

The document of rank 0 has one object with an entry for each test and each repetition. It is JSON
exactly if each test is shown from its beginning to its end and all figures are finite: a test
with a summary of its own does not close its array of results, a test that is not shown is closed
nevertheless, and a rate over no time is printed as `inf` or `nan`.
-/

namespace HandsOn.Ior.Report

open Semantics Semantics.Json

/-! ### The report -/

def sectionValue (fields : List Field) : Value := .object (fields.map Field.member)

/-- The sections of one repetition. -/
def Test.sections (test : Test) (rep : ℕ) : List (List Field) :=
  let params := test.params
  let results := test.repetition rep
  (if params.writeFile ≠ 0 ∧ results.writeTimeElapsed = false then
    [results.write.fields "write".toList] else []) ++
  (if (params.readFile ≠ 0 ∨ params.checkRead ≠ 0) ∧ results.readTimeElapsed = false then
    [results.read.fields "read".toList] else []) ++
  if params.keepFile = 0 ∧ ¬ (results.errorFound = true ∧ params.keepFileWithError ≠ 0) then
    [removeFields results.removeTime] else []

/-- The sections of the summary of a test. -/
def Test.summaries (test : Test) : List (List Field) :=
  (if test.params.writeFile ≠ 0 then [test.write.fields test.params "write".toList] else []) ++
  if test.params.readFile ≠ 0 then [test.read.fields test.params "read".toList] else []

def FileSystem.members (fileSystem : FileSystem) : List (List Char × Value) :=
  [("Path".toList, .string fileSystem.realPath),
    ("Capacity".toList,
      .string (fileSystem.totalFileSystemSize ++ ' ' :: fileSystem.fileSystemUnit)),
    ("Used Capacity".toList, .string (fileSystem.usedFileSystemPercentage ++ ['%'])),
    ("Inodes".toList, .string (fileSystem.totalInodes ++ " Mi".toList)),
    ("Used Inodes".toList, .string (fileSystem.usedInodePercentage ++ ['%']))]

def Test.report (run : Run) (test : Test) : Value :=
  .object (
    [("TestID".toList, (Scalar.int test.params.id).value),
      ("StartTime".toList, (Scalar.text (some test.startTime)).value)] ++
    (if hasPrefix test.params.testFileName = false then test.fileSystem.members else []) ++
    [("Parameters".toList, sectionValue (parameters run.tasksPerNode test.params)),
      ("Options".toList, sectionValue (options run.ratio test.params)),
      ("Results".toList, .array ((List.range test.params.repetitions.toNat).map fun rep =>
        .array ((test.sections rep).map sectionValue))),
      ("max".toList, sectionValue test.maximaFields)])

/-- What `Machine` says. -/
def machineText (verbose : Int) : Option Machine → List Char
  | none => "Unknown".toList
  | some machine => machine.sysname ++ ' ' :: (machine.nodename ++
      if 2 ≤ verbose then
        ' ' :: (machine.release ++ ' ' :: (machine.version ++ ' ' :: machine.machine)) else [])

def commandLine (argv : List (List Char)) : List Char :=
  argv.headD [] ++ argv.tail.flatMap (' ' :: ·)

def Run.members (run : Run) : List (List Char × Value) :=
  [("Began".toList, .string (shown (some run.began))),
    ("Command line".toList, .string (commandLine run.argv)),
    ("Machine".toList, .string (machineText run.firstVerbose run.machine)),
    ("tests".toList, .array (run.tests.map (Test.report run))),
    ("summary".toList, .array ((run.tests.flatMap Test.summaries).map sectionValue)),
    ("Finished".toList, .string (shown (some run.finished)))]

def Run.report (run : Run) : Value := .object run.members

/-- All figures that are printed of the results are finite. -/
structure Test.Finite (test : Test) : Prop where
  sections : ∀ rep ∈ List.range test.params.repetitions.toNat, ∀ fields ∈ test.sections rep,
    ∀ field ∈ fields, field.Finite
  maxima : ∀ field ∈ test.maximaFields, field.Finite

/-- A test which is shown from its beginning to its end. -/
structure Test.Complete (test : Test) : Prop where
  verbose : 0 ≤ test.params.verbose
  summary : test.params.summary_every_test = 0
  finite : test.Finite

structure FileSystem.Plain (fileSystem : FileSystem) : Prop where
  realPath : PlainText fileSystem.realPath
  totalFileSystemSize : PlainText fileSystem.totalFileSystemSize
  fileSystemUnit : PlainText fileSystem.fileSystemUnit
  usedFileSystemPercentage : PlainText fileSystem.usedFileSystemPercentage
  totalInodes : PlainText fileSystem.totalInodes
  usedInodePercentage : PlainText fileSystem.usedInodePercentage

structure Test.Plain (test : Test) : Prop where
  startTime : PlainText (shown (some test.startTime))
  fileSystem : test.fileSystem.Plain
  api : PlainText (shown test.params.api)
  apiVersion : PlainText (shown test.params.apiVersion)
  platform : PlainText (shown test.params.platform)
  testFileName : PlainText (shown (some test.params.testFileName))
  hintsFileName : PlainText (shown test.params.hintsFileName)
  options : PlainText (shown test.params.options)

/-- No text has a character that JSON would have to escape. -/
structure Run.Plain (run : Run) : Prop where
  began : PlainText (shown (some run.began))
  argv : PlainText (commandLine run.argv)
  machine : PlainText (machineText run.firstVerbose run.machine)
  tests : ∀ test ∈ run.tests, test.Plain
  finished : PlainText (shown (some run.finished))
  ratio : ∀ value unit, PlainText (run.ratio value unit)

/-! ### Plain texts -/

theorem plainText_humanReadable {ratio : Int → Int → List Char}
    (plain : ∀ value unit, PlainText (ratio value unit)) (value : Int) :
    PlainText (humanReadable ratio value) := by
  have scaled : ∀ unit : Int, PlainText (if value % unit ≠ 0 then ratio value unit
      else longDecimal (value / unit)) := by
    intro unit
    split
    · exact plain value unit
    · exact plainText_longDecimal _
  unfold humanReadable
  split
  · exact (scaled _).append (by decide)
  split
  · exact (scaled _).append (by decide)
  split
  · exact (scaled _).append (by decide)
  split
  · exact (plainText_longDecimal value).append (by decide)
  · decide

variable {run : Run} {test : Test}

theorem plainFields_parameters (plain : test.Plain) (tasksPerNode : Int) :
    PlainFields (parameters tasksPerNode test.params) := by
  have letter : PlainText (shown (some test.params.dataPacketType.letter)) := by
    cases test.params.dataPacketType <;> decide
  apply plainFields_of
  · rfl
  · simp only [parameters, List.forall_mem_cons, Scalar.plain_text, Scalar.plain_int, plain.api,
      plain.platform, plain.testFileName, plain.hintsFileName, plain.options, letter, true_and,
      List.not_mem_nil, IsEmpty.forall_iff, implies_true]

theorem plainFields_options (plain : test.Plain)
    (ratio : ∀ value unit, PlainText (run.ratio value unit)) :
    PlainFields (options run.ratio test.params) := by
  have size : ∀ value, PlainText (shown (some (humanReadable run.ratio value))) :=
    fun value => (plainText_humanReadable ratio value).shown
  have choice : ∀ {condition : Prop} [Decidable condition] {text rest : List Char},
      PlainText (shown (some text)) → PlainText (shown (some rest)) →
        PlainText (shown (some (if condition then text else rest))) := by
    intro condition _ text rest plain others
    split
    · exact plain
    · exact others
  refine .append (.append (.append (.append (.append (.append (.append (.append
    (plainFields_of rfl ?_) (plainFields_ite (plainFields_of rfl ?_)))
    (plainFields_ite (plainFields_of rfl ?_))) (plainFields_ite (plainFields_of rfl ?_)))
    (plainFields_of rfl ?_)) (plainFields_ite (plainFields_of rfl ?_)))
    (plainFields_ite (plainFields_of rfl ?_))) (plainFields_of rfl ?_))
    (plainFields_ite (plainFields_of rfl ?_))
  all_goals simp only [List.forall_mem_cons, and_true, true_and,
    Scalar.plain_text, Scalar.plain_int, plain.api, plain.apiVersion, plain.testFileName, size,
    IsEmpty.forall_iff, implies_true, List.not_mem_nil]
  · exact ⟨choice (by decide) (by decide), choice (by decide) (by decide),
      choice (by decide) (by decide)⟩
  all_goals decide

theorem plainFields_reduced {access : List Char} (plain : PlainText (shown (some access)))
    (reduced : Reduced) : PlainFields (reduced.fields access) := by
  apply plainFields_of
  · rfl
  · simp [Reduced.fields, plain]

theorem plainFields_remove (time : Figure) : PlainFields (removeFields time) := by
  have remove : PlainText (shown (some "remove".toList)) := by decide
  apply plainFields_of
  · rfl
  · simpa [removeFields] using remove

theorem plainFields_maxima (test : Test) : PlainFields test.maximaFields := by
  refine .append (plainFields_ite (plainFields_of rfl ?_)) (plainFields_ite (plainFields_of rfl ?_))
  all_goals simp

theorem plainFields_operation (plain : test.Plain) {operation : List Char}
    (named : PlainText (shown (some operation))) (results : Operation) :
    PlainFields (results.fields test.params operation) := by
  apply plainFields_of
  · rfl
  · simp [Operation.fields, plain.api, named]

theorem plainFields_sections (test : Test) (rep : ℕ) :
    ∀ fields ∈ test.sections rep, PlainFields fields := by
  intro fields inside
  simp only [Test.sections, List.mem_append, List.mem_ite_nil_right, List.mem_singleton] at inside
  rcases inside with (⟨_, rfl⟩ | ⟨_, rfl⟩) | ⟨_, rfl⟩
  · exact plainFields_reduced (by decide) _
  · exact plainFields_reduced (by decide) _
  · exact plainFields_remove _

theorem plainFields_summaries (plain : test.Plain) :
    ∀ fields ∈ test.summaries, PlainFields fields := by
  intro fields inside
  simp only [Test.summaries, List.mem_append, List.mem_ite_nil_right, List.mem_singleton] at inside
  rcases inside with ⟨_, rfl⟩ | ⟨_, rfl⟩
  · exact plainFields_operation plain (by decide) _
  · exact plainFields_operation plain (by decide) _

/-! ### Sections -/

theorem plain_none : ∀ chars ∈ (none : Option (List Char)), PlainText chars := by
  rintro _ ⟨⟩

theorem plain_some {key : List Char} (plain : PlainText key) :
    ∀ chars ∈ some key, PlainText chars := by
  rintro _ ⟨⟩
  exact plain

theorem appends_section {fields : List Field} (plain : PlainFields fields)
    (finite : ∀ field ∈ fields, field.Finite) :
    Appends (printSection fields) [.element (sectionValue fields)] :=
  .enclosed plain_none opens_printStartSection closes_printEndSection
    (appends_printFields plain finite) fun _ => .object

theorem halts_section {fields : List Field} (plain : PlainFields fields)
    (infinite : ¬ ∀ field ∈ fields, field.Finite) (brackets : List Bracket) :
    Halts (printSection fields) brackets :=
  (opens_printStartSection.scans plain_none brackets).halts
    ((halts_printFields plain infinite _).andThen _)

/-- Sections next to one another. -/
theorem appends_sections {sections : List (List Field)}
    (plain : ∀ fields ∈ sections, PlainFields fields)
    (finite : ∀ fields ∈ sections, ∀ field ∈ fields, field.Finite) :
    Appends (prints (sections.map printSection)) ((sections.map sectionValue).map .element) := by
  rw [List.map_map]
  exact appends_map fun fields inside =>
    appends_section (plain fields inside) (finite fields inside)

theorem halts_sections {sections : List (List Field)}
    (plain : ∀ fields ∈ sections, PlainFields fields)
    (infinite : ¬ ∀ fields ∈ sections, ∀ field ∈ fields, field.Finite) (brackets : List Bracket) :
    Halts (prints (sections.map printSection)) brackets :=
  halts_map _ (fun fields inside finite => (appends_section (plain fields inside) finite).scans _)
    (fun fields inside infinite => halts_section (plain fields inside) infinite _) infinite

theorem when_printSection (condition : Prop) [Decidable condition] (fields : List Field) :
    when condition (printSection fields) =
      prints ((if condition then [fields] else []).map printSection) := by
  unfold when
  split
  · exact (Print.andThen_nil _).symm
  · rfl

/-! ### Repetitions -/

variable {rank rep : ℕ}

theorem when_true {condition : Prop} [Decidable condition] (holds : condition) (print : Print) :
    when condition print = print := if_pos holds

theorem when_false {condition : Prop} [Decidable condition] (fails : ¬ condition)
    (print : Print) : when condition print = prints [] := if_neg fails

theorem printRepetition_shown (verbose : 0 ≤ test.params.verbose) (rep : ℕ) :
    test.printRepetition 0 rep =
      prints [printArrayStart, prints ((test.sections rep).map printSection), printArrayEnd] := by
  simp only [Test.printRepetition, printReducedResult, printRemoveTiming, printRepeatStart,
    printRepeatEnd, Test.sections, when_true (And.intro rfl verbose), when_printSection,
    List.map_append, prints_append, prints, Print.andThen_assoc]

/-- Nothing is shown of a repetition but its brackets. -/
theorem printRepetition_hidden (hidden : ¬ (rank = 0 ∧ 0 ≤ test.params.verbose)) (rep : ℕ) :
    test.printRepetition rank rep = prints [printArrayStart, printArrayEnd] := by
  have nothing : ∀ (condition : Prop) [Decidable condition],
      when condition (prints []) = prints [] := fun condition _ => ite_self _
  simp only [Test.printRepetition, printReducedResult, printRemoveTiming, when_false hidden,
    nothing]
  rfl

/-- A repetition is an array of sections. -/
theorem appends_repetition (verbose : 0 ≤ test.params.verbose)
    (finite : ∀ fields ∈ test.sections rep, ∀ field ∈ fields, field.Finite) :
    Appends (test.printRepetition 0 rep)
      [.element (.array ((test.sections rep).map sectionValue))] := by
  rw [printRepetition_shown verbose]
  exact .enclosed plain_none opens_printArrayStart closes_printArrayEnd
    (appends_sections (plainFields_sections test rep) finite) fun _ => .array

theorem halts_repetition (verbose : 0 ≤ test.params.verbose)
    (infinite : ¬ ∀ fields ∈ test.sections rep, ∀ field ∈ fields, field.Finite)
    (brackets : List Bracket) : Halts (test.printRepetition 0 rep) brackets := by
  rw [printRepetition_shown verbose]
  apply (opens_printArrayStart.scans plain_none brackets).halts
  exact (halts_sections (plainFields_sections test rep) infinite _).andThen _

theorem scans_repetition_hidden (hidden : ¬ (rank = 0 ∧ 0 ≤ test.params.verbose)) (rep : ℕ)
    (brackets : List Bracket) : Scans (test.printRepetition rank rep) brackets brackets := by
  rw [printRepetition_hidden hidden]
  apply (opens_printArrayStart.scans plain_none brackets).andThen
  apply (closes_printArrayEnd.scans brackets).andThen
  exact scans_nil brackets

/-! ### Tests -/

theorem renders_string {key text : List Char} (plainKey : PlainText key) (plain : PlainText text) :
    Renders (.entry (.member key (.string text)))
      ('"' :: (key ++ ("\": \"".toList ++ (text ++ ['"'])))) := by
  have labelled := renders_label (plain_some plainKey)
    (Renders.string (characters_of_plain plain))
  simpa [label, keyText] using labelled

/-- The commas in the text of `ShowFileSystemSize` are where they have to be after a field. -/
theorem appends_fileSystem {print : Print} {entries : List Entry} {fileSystem : FileSystem}
    (appends : Appends print entries) (some : entries ≠ []) (plain : fileSystem.Plain) :
    Appends (prints [print, showFileSystemSize fileSystem])
      (entries ++ fileSystem.members.map fun entry => .member entry.1 entry.2) := by
  have spaces : ∀ char ∈ [' ', ' ', ' ', ' '], IsSpace char := by decide
  have space : ∀ char ∈ [' '], IsSpace char := by decide
  have newline : ∀ char ∈ ['\n'], IsSpace char := by decide
  have path :=
    (renders_string (by decide : PlainText "Path".toList) plain.realPath).entry_before space
  have capacity := renders_string (by decide : PlainText "Capacity".toList)
    (plain.totalFileSystemSize.append (plain.fileSystemUnit.cons (by decide : Json.Plain ' ')))
  have used := (renders_string (by decide : PlainText "Used Capacity".toList)
    (plain.usedFileSystemPercentage.append (by decide : PlainText ['%']))).entry_before space
  have inodes := renders_string (by decide : PlainText "Inodes".toList)
    (plain.totalInodes.append (by decide : PlainText " Mi".toList))
  have usedText : PlainText (fileSystem.usedInodePercentage ++ ['%']) :=
    plain.usedInodePercentage.append (by decide)
  have usedInodes := (Renders.member (characters_of_plain
    (by decide : PlainText "Used Inodes".toList)) space space
    (.spaceBefore (by decide : IsSpace ' ')
      (.string (characters_of_plain usedText)))).entry_after newline
  have renders := path.more (capacity.more (used.more (inodes.more (.single usedInodes))))
  have same : ∀ {text : List Char}, Appends (prints [print, write text])
      (entries ++ fileSystem.members.map fun entry => .member entry.1 entry.2) →
      showFileSystemSize fileSystem = write text →
      Appends (prints [print, showFileSystemSize fileSystem])
        (entries ++ fileSystem.members.map fun entry => .member entry.1 entry.2) :=
    fun appends same => same ▸ appends
  refine same (appends.byHand some spaces renders (List.cons_ne_nil _ _)) ?_
  funext layout
  simp [showFileSystemSize, prints, Print.andThen, write]

/-- A section with a name. -/
def printNamedSection (key : List Char) (fields : List Field) : Print :=
  prints [printNamedSectionStart key, printFields fields, printEndSection]

theorem appends_namedSection {key : List Char} {fields : List Field} (plainKey : PlainText key)
    (plain : PlainFields fields) (finite : ∀ field ∈ fields, field.Finite) :
    Appends (printNamedSection key fields) [.member key (sectionValue fields)] :=
  .enclosed (plain_some plainKey) (opens_printNamedSectionStart key) closes_printEndSection
    (appends_printFields plain finite) fun _ => .object

/-- The first entries of a test. -/
def Test.printBeginning (test : Test) : Print :=
  prints [
    printFields [("TestID".toList, .int test.params.id),
      ("StartTime".toList, .text (some test.startTime))],
    when (hasPrefix test.params.testFileName = false) (showFileSystemSize test.fileSystem)]

/-- The entries of a test in front of its results. -/
def Test.printSetup (run : Run) (test : Test) : Print :=
  prints [
    test.printBeginning,
    printNamedSection "Parameters".toList (parameters run.tasksPerNode test.params),
    printNamedSection "Options".toList (options run.ratio test.params)]

def Test.printResults (test : Test) : Print :=
  prints [
    printNamedArrayStart "Results".toList,
    prints ((List.range test.params.repetitions.toNat).map (test.printRepetition 0)),
    printArrayEnd]

/-- What is printed of a test in entries, if it is shown and has no summary of its own. -/
theorem print_shown (run : Run) (verbose : 0 ≤ test.params.verbose)
    (summary : test.params.summary_every_test = 0) :
    test.print 0 run = prints [printStartSection, prints [test.printSetup run, test.printResults,
      printNamedSection "max".toList test.maximaFields], printEndSection] := by
  simp only [Test.print, showTestStart, testIoSys, showSetup, printShortSummary, showTestEnd,
    when_true (And.intro rfl verbose), when_true test.tasks, summary, ne_eq, not_true_eq_false,
    if_false, Test.printSetup, Test.printBeginning, printNamedSection, Test.printResults,
    printFields, printField, List.map_cons, List.map_nil, prints, Print.andThen_assoc,
    Print.nil_andThen]

theorem appends_beginning (plain : test.Plain) :
    Appends test.printBeginning (([("TestID".toList, (Scalar.int test.params.id).value),
      ("StartTime".toList, (Scalar.text (some test.startTime)).value)] ++
        if hasPrefix test.params.testFileName = false then test.fileSystem.members else []).map
          fun entry => .member entry.1 entry.2) := by
  have plainFields : PlainFields [("TestID".toList, .int test.params.id),
      ("StartTime".toList, .text (some test.startTime))] :=
    plainFields_of rfl (by simp [plain.startTime])
  have fields := appends_printFields plainFields (by simp)
  rw [List.map_append, Test.printBeginning]
  by_cases own : hasPrefix test.params.testFileName = false
  · rw [if_pos own, when_true own]
    exact appends_fileSystem fields (List.cons_ne_nil _ _) plain.fileSystem
  · rw [if_neg own, when_false own]
    exact fields.andThen (appends_nil.andThen appends_nil)

theorem appends_results (verbose : 0 ≤ test.params.verbose)
    (finite : ∀ rep ∈ List.range test.params.repetitions.toNat, ∀ fields ∈ test.sections rep,
      ∀ field ∈ fields, field.Finite) :
    Appends test.printResults [.member "Results".toList
      (.array ((List.range test.params.repetitions.toNat).map fun rep =>
        .array ((test.sections rep).map sectionValue)))] := by
  have each := appends_map fun rep inside => appends_repetition verbose (finite rep inside)
  refine .enclosed (plain_some (by decide)) (opens_printNamedArrayStart _) closes_printArrayEnd
    each fun inner renders => .array ?_
  rwa [List.map_map]

theorem finite_options (ratio : Int → Int → List Char) (params : Param) :
    ∀ field ∈ options ratio params, field.Finite := by
  have choice : ∀ {condition : Prop} [Decidable condition] {fields : List Field},
      (∀ field ∈ fields, field.Finite) →
        ∀ field ∈ if condition then fields else [], field.Finite := by
    intro condition _ fields finite
    split
    · exact finite
    · exact List.forall_mem_nil _
  simp only [options, List.forall_mem_append]
  refine ⟨⟨⟨⟨⟨⟨⟨⟨?_, choice ?_⟩, choice ?_⟩, choice ?_⟩, ?_⟩, choice ?_⟩, choice ?_⟩, ?_⟩,
    choice ?_⟩
  all_goals simp only [List.forall_mem_cons, Field.finite_text, Field.finite_int, true_and,
    List.not_mem_nil, IsEmpty.forall_iff, implies_true]

theorem appends_setup (plain : test.Plain)
    (ratio : ∀ value unit, PlainText (run.ratio value unit)) :
    Appends (test.printSetup run) ((([("TestID".toList, (Scalar.int test.params.id).value),
      ("StartTime".toList, (Scalar.text (some test.startTime)).value)] ++
        if hasPrefix test.params.testFileName = false then test.fileSystem.members else []) ++
      [("Parameters".toList, sectionValue (parameters run.tasksPerNode test.params)),
        ("Options".toList, sectionValue (options run.ratio test.params))]).map
          fun entry => .member entry.1 entry.2) := by
  have parametersFinite : ∀ field ∈ parameters run.tasksPerNode test.params, field.Finite := by
    simp only [parameters, List.forall_mem_cons, Field.finite_text, Field.finite_int, true_and,
      List.not_mem_nil, IsEmpty.forall_iff, implies_true]
  rw [List.map_append]
  exact (appends_beginning plain).andThen
    ((appends_namedSection (by decide) (plainFields_parameters plain _) parametersFinite).andThen
    ((appends_namedSection (by decide) (plainFields_options plain ratio)
      (finite_options _ _)).andThen appends_nil))

/-- A complete test is an element of the array of tests. -/
theorem appends_test (plain : test.Plain) (ratio : ∀ value unit, PlainText (run.ratio value unit))
    (complete : test.Complete) : Appends (test.print 0 run) [.element (test.report run)] := by
  have inner := (appends_setup plain ratio).andThen
    ((appends_results complete.verbose complete.finite.sections).andThen
    ((appends_namedSection (by decide : PlainText "max".toList) (plainFields_maxima test)
      complete.finite.maxima).andThen appends_nil))
  rw [print_shown run complete.verbose complete.summary]
  refine .enclosed plain_none opens_printStartSection closes_printEndSection inner
    fun _ renders => .object ?_
  simpa only [List.map_append, List.map_cons, List.map_nil, List.append_assoc, List.cons_append,
    List.nil_append, List.append_nil] using renders

/-! ### Tests that are not complete -/

theorem printLongSummaryOneTest_shown {verbose : Int} (shown : 0 ≤ verbose) (test : Test) :
    printLongSummaryOneTest 0 verbose test = prints (test.summaries.map printSection) := by
  simp only [printLongSummaryOneTest, printLongSummaryOneOperation, Test.summaries,
    when_true (And.intro rfl shown), when_printSection, List.map_append, prints_append, prints,
    Print.andThen_nil]

theorem scans_hidden (hidden : ¬ (rank = 0 ∧ 0 ≤ test.params.verbose)) (run : Run)
    (brackets : List Bracket) : Scans (testIoSys rank run test) brackets brackets := by
  have nothing : ∀ (condition : Prop) [Decidable condition],
      Scans (when condition (prints [])) brackets brackets := by
    intro condition _
    rw [when, ite_self]
    exact scans_nil brackets
  have repetitions : Scans (prints ((List.range test.params.repetitions.toNat).map
      (test.printRepetition rank))) brackets brackets :=
    scans_map fun rep _ => scans_repetition_hidden hidden rep brackets
  unfold testIoSys
  by_cases participates : rank < test.params.numTasks
  · rw [when_true participates, when_false hidden]
    refine (scans_nil brackets).andThen (repetitions.andThen (.andThen ?_ (scans_nil brackets)))
    split
    · simp only [printLongSummaryOneTest, printLongSummaryOneOperation, when_false hidden]
      exact (nothing _).andThen ((nothing _).andThen (scans_nil brackets))
    · rw [printShortSummary, when_false hidden]
      exact scans_nil brackets
  · rw [when_false participates]
    exact scans_nil brackets

/-- The end of a test that is not shown closes what the test did not open. -/
theorem halts_hidden (hidden : ¬ (rank = 0 ∧ 0 ≤ test.params.verbose)) (run : Run)
    {brackets : List Bracket} (other : brackets.head? ≠ some .curly) :
    Halts (test.print rank run) brackets := by
  rw [Test.print, when_false hidden]
  apply (scans_nil brackets).halts
  apply (scans_hidden hidden run brackets).halts
  exact (closes_printEndSection.halts other).andThen _

/-- What is printed of a test with a summary of its own, up to its end. -/
theorem print_summary (run : Run) (verbose : 0 ≤ test.params.verbose)
    (summary : test.params.summary_every_test ≠ 0) :
    test.print 0 run = prints [
      printStartSection,
      test.printSetup run,
      printNamedArrayStart "Results".toList,
      prints ((List.range test.params.repetitions.toNat).map (test.printRepetition 0)),
      prints (test.summaries.map printSection),
      printEndSection] := by
  simp only [Test.print, showTestStart, testIoSys, showSetup, showTestEnd,
    when_true (And.intro rfl verbose), when_true test.tasks, if_pos summary,
    printLongSummaryOneTest_shown verbose,
    Test.printSetup, Test.printBeginning, printNamedSection, printFields, printField,
    List.map_cons, List.map_nil, prints, Print.andThen_assoc, Print.nil_andThen]

theorem halts_repetitions (verbose : 0 ≤ test.params.verbose)
    (infinite : ¬ ∀ rep ∈ List.range test.params.repetitions.toNat,
      ∀ fields ∈ test.sections rep, ∀ field ∈ fields, field.Finite) (brackets : List Bracket) :
    Halts (prints ((List.range test.params.repetitions.toNat).map (test.printRepetition 0)))
      brackets :=
  halts_map _ (fun _ _ good => (appends_repetition verbose good).scans _)
    (fun _ _ bad => halts_repetition verbose bad _) infinite

theorem halts_summary (plain : test.Plain)
    (ratio : ∀ value unit, PlainText (run.ratio value unit)) (verbose : 0 ≤ test.params.verbose)
    (summary : test.params.summary_every_test ≠ 0) (brackets : List Bracket) :
    Halts (test.print 0 run) brackets := by
  have ends : Halts printEndSection (.square :: .curly :: brackets) :=
    closes_printEndSection.halts (by rintro ⟨⟩)
  have results : PlainText "Results".toList := by decide
  rw [print_summary run verbose summary]
  apply (opens_printStartSection.scans plain_none brackets).halts
  apply ((appends_setup plain ratio).scans _).halts
  apply ((opens_printNamedArrayStart _).scans (plain_some results) _).halts
  -- the results or the summary may end it before the bracket does
  by_cases finite : ∀ rep ∈ List.range test.params.repetitions.toNat,
      ∀ fields ∈ test.sections rep, ∀ field ∈ fields, field.Finite
  · apply (scans_map fun rep inside =>
      (appends_repetition verbose (finite rep inside)).scans _).halts
    by_cases summaries : ∀ fields ∈ test.summaries, ∀ field ∈ fields, field.Finite
    · apply ((appends_sections (plainFields_summaries plain) summaries).scans _).halts
      exact ends.andThen _
    · exact (halts_sections (plainFields_summaries plain) summaries _).andThen _
  · exact (halts_repetitions verbose finite _).andThen _

theorem halts_infinite (plain : test.Plain)
    (ratio : ∀ value unit, PlainText (run.ratio value unit)) (verbose : 0 ≤ test.params.verbose)
    (summary : test.params.summary_every_test = 0) (infinite : ¬ test.Finite)
    (brackets : List Bracket) : Halts (test.print 0 run) brackets := by
  have results : PlainText "Results".toList := by decide
  have max : PlainText "max".toList := by decide
  rw [print_shown run verbose summary]
  apply (opens_printStartSection.scans plain_none brackets).halts
  apply Halts.andThen
  apply ((appends_setup plain ratio).scans _).halts
  by_cases finite : ∀ rep ∈ List.range test.params.repetitions.toNat,
      ∀ fields ∈ test.sections rep, ∀ field ∈ fields, field.Finite
  · have maxima : ¬ ∀ field ∈ test.maximaFields, field.Finite :=
      fun maxima => infinite ⟨finite, maxima⟩
    apply ((appends_results verbose finite).scans _).halts
    apply Halts.andThen
    apply ((opens_printNamedSectionStart _).scans (plain_some max) _).halts
    exact (halts_printFields (plainFields_maxima test) maxima _).andThen _
  · apply Halts.andThen
    apply ((opens_printNamedArrayStart _).scans (plain_some results) _).halts
    exact (halts_repetitions verbose finite _).andThen _

/-- Among the tests, one that is not complete ends the text as JSON. -/
theorem halts_incomplete (plain : test.Plain)
    (ratio : ∀ value unit, PlainText (run.ratio value unit)) (incomplete : ¬ test.Complete)
    {brackets : List Bracket} (other : brackets.head? ≠ some .curly) :
    Halts (test.print 0 run) brackets := by
  by_cases verbose : 0 ≤ test.params.verbose
  · by_cases summary : test.params.summary_every_test = 0
    · apply halts_infinite plain ratio verbose summary
      exact fun finite => incomplete ⟨verbose, summary, finite⟩
    · exact halts_summary plain ratio verbose summary brackets
  · exact halts_hidden (fun shown => verbose shown.2) run other

/-! ### Runs -/

/-- A text that is written in parts between its quotes. -/
theorem appends_quoted {key text : List Char} (plainKey : PlainText key) (plain : PlainText text) :
    Appends (prints [printKeyValStart key, write text, printKeyValEnd])
      [.member key (.string text)] := by
  have renders := renders_string plainKey plain
  apply appends_entry fun _ => '"' :: (key ++ ("\": \"".toList ++ (text ++ ['"'])))
  · exact fun _ => renders
  · intro layout
    simp [printKeyValStart, printKeyValEnd, prints, Print.andThen, setNeedNextToken, write]
  · exact fun _ => rfl

theorem appends_commandLine {argv : List (List Char)} (plain : PlainText (commandLine argv)) :
    Appends (printCommandLine argv)
      [.member "Command line".toList (.string (commandLine argv))] := by
  have parts : printCommandLine argv = prints [printKeyValStart "Command line".toList,
      write (commandLine argv), printKeyValEnd] := by
    simp only [printCommandLine, commandLine, prints_write, prints, Print.write_andThen]
  rw [parts]
  exact appends_quoted (by decide) plain

theorem appends_machine {machine : Option Machine} {verbose : Int}
    (plain : PlainText (machineText verbose machine)) :
    Appends (printMachine verbose machine)
      [.member "Machine".toList (.string (machineText verbose machine))] := by
  cases machine with
  | none =>
      have unknown : Field.Plain ("Machine".toList, .text (some "Unknown".toList)) :=
        ⟨by decide, (by decide : PlainText "Unknown".toList).shown⟩
      exact appends_printField unknown trivial
  | some machine =>
      have parts : printMachine verbose (some machine) = prints [printKeyValStart "Machine".toList,
          write (machineText verbose (some machine)), printKeyValEnd] := by
        by_cases more : 2 ≤ verbose
        · simp only [printMachine, machineText, when_true more, if_pos more, prints,
            Print.write_andThen, List.append_assoc, List.cons_append]
        · simp only [printMachine, machineText, when_false more, if_neg more, prints,
            Print.nil_andThen, List.append_nil]
      rw [parts]
      exact appends_quoted (by decide) plain

def Run.printHead (run : Run) : Print :=
  prints [
    printKeyVal "Began".toList (some run.began),
    printCommandLine run.argv,
    printMachine run.firstVerbose run.machine]

def Run.printTests (run : Run) : Print :=
  prints [
    printArrayNamedStart "tests".toList,
    prints (run.tests.map (Test.print 0 run)),
    printArrayEnd]

def Run.printSummary (run : Run) : Print :=
  prints [
    printNamedArrayStart "summary".toList,
    prints ((run.tests.flatMap Test.summaries).map printSection),
    printArrayEnd]

/-- What rank 0 prints in entries. -/
theorem print_rank_zero (run : Run) :
    run.print 0 = prints [printStartSection, prints [run.printHead, run.printTests,
      run.printSummary, printKeyVal "Finished".toList (some run.finished)], printEndSection] := by
  have shown : 0 ≤ run.lastVerbose := le_max_left _ _
  have ends : ¬ ((0 : ℕ) ≠ 0 ∨ run.lastVerbose < 0) := by
    rintro (differs | negative)
    · exact differs rfl
    · exact absurd shown (not_le.mpr negative)
  have summaries : run.tests.map (printLongSummaryOneTest 0 run.lastVerbose) =
      run.tests.map fun test => prints (test.summaries.map printSection) :=
    List.map_congr_left fun test _ => printLongSummaryOneTest_shown shown test
  simp only [Run.print, printHeader, printLongSummaryAllTests, printTestEnds, if_neg ends,
    when_true (rfl : (0 : ℕ) = 0), when_true (And.intro rfl shown), summaries, prints_flatMap,
    Run.printHead, Run.printTests, Run.printSummary, List.map_flatMap, prints,
    Print.andThen_assoc, Print.nil_andThen]

theorem appends_head (plain : run.Plain) :
    Appends run.printHead [.member "Began".toList (.string (shown (some run.began))),
      .member "Command line".toList (.string (commandLine run.argv)),
      .member "Machine".toList (.string (machineText run.firstVerbose run.machine))] := by
  have began : Field.Plain ("Began".toList, .text (some run.began)) :=
    ⟨(by decide : PlainText "Began".toList), plain.began⟩
  exact (appends_printField began trivial).andThen ((appends_commandLine plain.argv).andThen
    ((appends_machine plain.machine).andThen appends_nil))

theorem plainFields_summary (plain : run.Plain) :
    ∀ fields ∈ run.tests.flatMap Test.summaries, PlainFields fields := by
  intro fields inside
  obtain ⟨test, listed, inside⟩ := List.mem_flatMap.mp inside
  exact plainFields_summaries (plain.tests test listed) fields inside

/-- The figures that are printed are finite, and each test is shown to its end. -/
def Run.Complete (run : Run) : Prop :=
  (∀ test ∈ run.tests, test.Complete) ∧
    ∀ fields ∈ run.tests.flatMap Test.summaries, ∀ field ∈ fields, field.Finite

theorem renders_report (plain : run.Plain) (complete : run.Complete) :
    Renders (.value run.report) (run.document 0) := by
  have finished : Field.Plain ("Finished".toList, .text (some run.finished)) :=
    ⟨(by decide : PlainText "Finished".toList), plain.finished⟩
  have tests : Appends run.printTests
      [label (some "tests".toList) (.array (run.tests.map (Test.report run)))] := by
    have each := appends_map fun test listed =>
      appends_test (plain.tests test listed) plain.ratio (complete.1 test listed)
    refine .enclosed (plain_some (by decide)) (opens_printArrayNamedStart _) closes_printArrayEnd
      each fun inner renders => .array ?_
    rwa [List.map_map]
  have summary : Appends run.printSummary [label (some "summary".toList)
      (.array ((run.tests.flatMap Test.summaries).map sectionValue))] :=
    .enclosed (plain_some (by decide)) (opens_printNamedArrayStart _) closes_printArrayEnd
      (appends_sections (plainFields_summary plain) complete.2) fun _ => .array
  have inner : Appends (prints [run.printHead, run.printTests, run.printSummary,
      printKeyVal "Finished".toList (some run.finished)])
      (run.members.map fun entry => .member entry.1 entry.2) :=
    (appends_head plain).andThen (tests.andThen (summary.andThen
      ((appends_printField finished trivial).andThen appends_nil)))
  have whole : Appends (run.print 0) [label none run.report] := by
    rw [print_rank_zero]
    exact .enclosed plain_none opens_printStartSection closes_printEndSection inner fun _ => .object
  have sequence := (whole.text ⟨0, false⟩).renders
  cases sequence with
  | single renders =>
      cases renders with
      | element renders => exact renders

/-- The first test of another rank closes a bracket that is not open. -/
theorem halts_other_rank (run : Run) (other : rank ≠ 0) : Halts (run.print rank) [] := by
  rw [Run.print, printHeader, when_false other]
  apply (scans_nil []).halts
  apply Halts.andThen
  refine halts_map (fun _ => False) (fun _ _ => False.elim)
    (fun test _ _ => halts_hidden (fun shown => other shown.1) run (by rintro ⟨⟩)) ?_
  exact fun none => none _ (List.head_mem run.listed)

theorem halts_document (plain : run.Plain) (incomplete : ¬ (rank = 0 ∧ run.Complete)) :
    Halts (run.print rank) [] := by
  rcases eq_or_ne rank 0 with rfl | other
  · rw [print_rank_zero]
    apply (opens_printStartSection.scans plain_none []).halts
    apply Halts.andThen
    apply ((appends_head plain).scans _).halts
    have tests : PlainText "tests".toList := by decide
    have summary : PlainText "summary".toList := by decide
    have opens := (opens_printArrayNamedStart _).scans (plain_some tests) [.curly]
    by_cases complete : ∀ test ∈ run.tests, test.Complete
    · have infinite : ¬ ∀ fields ∈ run.tests.flatMap Test.summaries, ∀ field ∈ fields,
          field.Finite := fun finite => incomplete ⟨rfl, complete, finite⟩
      have scans : Scans run.printTests [.curly] [.curly] := by
        apply opens.andThen
        refine .andThen (scans_map fun test listed => ?_)
          ((closes_printArrayEnd.scans _).andThen (scans_nil _))
        exact (appends_test (plain.tests test listed) plain.ratio (complete test listed)).scans _
      apply scans.halts
      apply Halts.andThen
      apply ((opens_printNamedArrayStart _).scans (plain_some summary) _).halts
      exact (halts_sections (plainFields_summary plain) infinite _).andThen _
    · apply Halts.andThen
      apply opens.halts
      apply Halts.andThen
      refine halts_map Test.Complete (fun test listed complete => ?_)
        (fun test listed incomplete => ?_) complete
      · exact (appends_test (plain.tests test listed) plain.ratio complete).scans _
      · exact halts_incomplete (plain.tests test listed) plain.ratio incomplete (by rintro ⟨⟩)
  · exact halts_other_rank run other

/-- The line of `PrintEarlyHeader` is not JSON, and so the whole text of rank 0 is not. -/
theorem not_renders_resultText (run : Run) (version : ∀ char ∈ run.version, Quiet char)
    (value : Value) : ¬ Renders (.value value) (run.resultText 0) := by
  have program : Moves [] [] "IOR-".toList := moves_of_quiet [] (by decide)
  have title : Stops [] ": MPI Coordinated Test of Parallel I/O\n".toList := by
    intro afterF
    cases afterF <;> rfl
  have line := program.stops ((moves_of_quiet [] version).stops title)
  exact not_renders_of_stops (line.append (run.document 0)) value

private def writeOnce : Run where
  version := "3.2.1".toList
  argv := ["ior".toList, "-w".toList]
  began := "Thu Jul  1 09:00:00 2021\n".toList
  machine := none
  tasksPerNode := 1
  tests := [{
    params := {
      id := 0, referenceNumber := 0, api := some "POSIX".toList, apiVersion := some [],
      platform := none, testFileName := "testFile".toList, hintsFileName := none,
      options := none, deadlineForStonewalling := 0, stoneWallingWearOut := 0,
      maxTimeDuration := 0, outlierThreshold := 0, numTasks := 1, nodes := 1, tasksPerNode := 1,
      memoryPerTask := 0, memoryPerNode := 0, repetitions := 1, multiFile := 0,
      interTestDelay := 0, fsync := 0, fsyncPerWrite := 0, useExistingTestFile := 0,
      showHints := 0, uniqueDir := 0, individualDataSets := 0, singleXferAttempt := 0,
      readFile := 0, writeFile := 1, filePerProc := 0, reorderTasks := 0,
      taskPerNodeOffset := 1, reorderTasksRandom := 0, reorderTasksRandomSeed := 0,
      randomOffset := 0, checkWrite := 0, checkRead := 0, preallocate := 0, useFileView := 0,
      setAlignment := 1, storeFileOffset := 0, useSharedFilePointer := 0, useO_DIRECT := 0,
      useStridedDatatype := 0, keepFile := 1, keepFileWithError := 0, quitOnError := 0,
      verbose := 0, dataPacketType := .generic, setTimeStampSignature := 0, collective := 0,
      segmentCount := 1, transferSize := 262144, blockSize := 1048576,
      expectedAggFileSize := 1048576, summary_every_test := 0 }
    tasks := by decide
    startTime := "Thu Jul  1 09:00:00 2021\n".toList
    fileSystem := ⟨"/tmp".toList, "9.5".toList, "GiB".toList, "50.0".toList, "0.6".toList,
      "1.5".toList⟩
    repetition _ := ⟨false, false, ⟨.finite false 2500000, .finite false 10240000,
      .finite false 2560000, .finite false 0, .finite false 40, .finite false 0,
      .finite false 40⟩, ⟨.nan true, .nan true, .nan true, .nan true, .nan true, .nan true,
      .nan true⟩, false, .finite false 0⟩
    write := ⟨.finite false 2500000, .finite false 2500000, .finite false 2500000,
      .finite false 0, .finite false 10000000, .finite false 10000000, .finite false 10000000,
      .finite false 0, .finite false 40, .finite false 10000⟩
    read := ⟨.nan true, .nan true, .nan true, .nan true, .nan true, .nan true, .nan true,
      .nan true, .nan true, .nan true⟩
    maxima := ⟨.finite false 2500000, .finite false 2621440, .infinite false, .infinite false⟩ }]
  listed := List.cons_ne_nil _ _
  finished := "Thu Jul  1 09:00:01 2021\n".toList
  ratio _ _ := "0.00".toList

private theorem writeOnce_plain : writeOnce.Plain where
  began := by decide
  argv := by decide
  machine := by decide
  tests := by
    refine List.forall_mem_singleton.mpr ?_
    exact ⟨by decide, ⟨by decide, by decide, by decide, by decide, by decide, by decide⟩,
      by decide, by decide, by decide, by decide, by decide, by decide⟩
  finished := by decide
  ratio _ _ := (by decide : PlainText "0.00".toList)

private theorem writeOnce_complete : writeOnce.Complete :=
  ⟨List.forall_mem_singleton.mpr ⟨by decide, rfl, by decide, by decide⟩, by decide⟩

end HandsOn.Ior.Report
