import HandsOn.Ior.Output

/-!
# The report of a run

What `ior_main` writes to `out_resultfile` when `outputFormat` is JSON: a header line and, for
rank 0, an object with the tests and their results. Which parameters the tests have and what was
measured are data; the functions here follow `ior.c` and `ior-output.c` in what they print.
-/

namespace HandsOn.Ior.Report

open Semantics Semantics.Json

/-- `enum PACKET_TYPE` -/
inductive PacketType where
  | generic
  | timestamp
  | offset
  | incompressible
deriving DecidableEq

/-- The parameters in `IOR_param_t` that the report depends on. -/
structure Param where
  id : Int
  referenceNumber : Int
  api : Option (List Char)
  apiVersion : Option (List Char)
  platform : Option (List Char)
  testFileName : List Char
  hintsFileName : Option (List Char)
  options : Option (List Char)
  deadlineForStonewalling : Int
  stoneWallingWearOut : Int
  maxTimeDuration : Int
  outlierThreshold : Int
  numTasks : ℕ
  nodes : Int
  tasksPerNode : Int
  memoryPerTask : Int
  memoryPerNode : Int
  repetitions : Int
  multiFile : Int
  interTestDelay : Int
  fsync : Int
  fsyncPerWrite : Int
  useExistingTestFile : Int
  showHints : Int
  uniqueDir : Int
  individualDataSets : Int
  singleXferAttempt : Int
  readFile : Int
  writeFile : Int
  filePerProc : Int
  reorderTasks : Int
  taskPerNodeOffset : Int
  reorderTasksRandom : Int
  reorderTasksRandomSeed : Int
  randomOffset : Int
  checkWrite : Int
  checkRead : Int
  preallocate : Int
  useFileView : Int
  setAlignment : Int
  storeFileOffset : Int
  useSharedFilePointer : Int
  useO_DIRECT : Int
  useStridedDatatype : Int
  keepFile : Int
  keepFileWithError : Int
  quitOnError : Int
  verbose : Int
  dataPacketType : PacketType
  setTimeStampSignature : Int
  collective : Int
  segmentCount : Int
  transferSize : Int
  blockSize : Int
  expectedAggFileSize : Int
  summary_every_test : Int

/-- What `statfs` and `realpath` say of the directory of a file, as it is printed. -/
structure FileSystem where
  realPath : List Char
  totalFileSystemSize : List Char
  fileSystemUnit : List Char
  usedFileSystemPercentage : List Char
  totalInodes : List Char
  usedInodePercentage : List Char

/-- What `PrintReducedResult` prints of one access. -/
structure Reduced where
  bwMiB : Figure
  blockKiB : Figure
  xferKiB : Figure
  openTime : Figure
  wrRdTime : Figure
  closeTime : Figure
  totalTime : Figure

/-- One repetition of a test; `test_time_elapsed` is asked before the write and the read. -/
structure Repetition where
  writeTimeElapsed : Bool
  readTimeElapsed : Bool
  write : Reduced
  read : Reduced
  errorFound : Bool
  removeTime : Figure

/-- What `PrintLongSummaryOneOperation` prints of all repetitions. -/
structure Operation where
  bwMaxMIB : Figure
  bwMinMIB : Figure
  bwMeanMIB : Figure
  bwStdMIB : Figure
  opsMax : Figure
  opsMin : Figure
  opsMean : Figure
  opsSD : Figure
  meanTime : Figure
  xsizeMiB : Figure

/-- What `PrintShortSummary` prints. -/
structure Maxima where
  writeMiB : Figure
  writeMB : Figure
  readMiB : Figure
  readMB : Figure

/-- One test and what was measured; `ValidateTests` refuses a test without tasks. -/
structure Test where
  params : Param
  tasks : 0 < params.numTasks
  startTime : List Char
  fileSystem : FileSystem
  repetition : ℕ → Repetition
  write : Operation
  read : Operation
  maxima : Maxima

/-- What `uname` returns. -/
structure Machine where
  sysname : List Char
  nodename : List Char
  release : List Char
  version : List Char
  machine : List Char

/-- A run of `ior_main`. -/
structure Run where
  version : List Char
  argv : List (List Char)
  began : List Char
  machine : Option Machine
  tasksPerNode : Int
  tests : List Test
  listed : tests ≠ []
  finished : List Char
  /-- `%.2f` of a quotient -/
  ratio : Int → Int → List Char

/-- `HumanReadable` in powers of two. -/
def humanReadable (ratio : Int → Int → List Char) (value : Int) : List Char :=
  let scaled (unit : Int) :=
    if value % unit ≠ 0 then ratio value unit else longDecimal (value / unit)
  if 2 ^ 40 ≤ value then scaled (2 ^ 40) ++ " TiB".toList
  else if 2 ^ 30 ≤ value then scaled (2 ^ 30) ++ " GiB".toList
  else if 2 ^ 20 ≤ value then scaled (2 ^ 20) ++ " MiB".toList
  else if 0 ≤ value then longDecimal value ++ " bytes".toList
  else "-".toList

/-- `Regex(testFileName, "^[a-z][a-z].*:")` -/
def hasPrefix : List Char → Bool
  | first :: second :: rest => first.isLower && second.isLower && rest.contains ':'
  | _ => false

/-! ### Fields -/

def PacketType.letter : PacketType → List Char
  | generic => ['g']
  | timestamp => ['t']
  | offset => ['o']
  | incompressible => ['i']

/-- The section `Parameters` of `ShowTestStart`. -/
def parameters (tasksPerNode : Int) (test : Param) : List Field :=
  [("testID".toList, .int test.id),
    ("refnum".toList, .int test.referenceNumber),
    ("api".toList, .text test.api),
    ("platform".toList, .text test.platform),
    ("testFileName".toList, .text (some test.testFileName)),
    ("hintsFileName".toList, .text test.hintsFileName),
    ("deadlineForStonewall".toList, .int test.deadlineForStonewalling),
    ("stoneWallingWearOut".toList, .int test.stoneWallingWearOut),
    ("maxTimeDuration".toList, .int test.maxTimeDuration),
    ("outlierThreshold".toList, .int test.outlierThreshold),
    ("options".toList, .text test.options),
    ("nodes".toList, .int test.nodes),
    ("memoryPerTask".toList, .int test.memoryPerTask),
    ("memoryPerNode".toList, .int test.memoryPerNode),
    ("tasksPerNode".toList, .int tasksPerNode),
    ("repetitions".toList, .int test.repetitions),
    ("multiFile".toList, .int test.multiFile),
    ("interTestDelay".toList, .int test.interTestDelay),
    ("fsync".toList, .int test.fsync),
    ("fsyncperwrite".toList, .int test.fsyncPerWrite),
    ("useExistingTestFile".toList, .int test.useExistingTestFile),
    ("showHints".toList, .int test.showHints),
    ("uniqueDir".toList, .int test.uniqueDir),
    ("individualDataSets".toList, .int test.individualDataSets),
    ("singleXferAttempt".toList, .int test.singleXferAttempt),
    ("readFile".toList, .int test.readFile),
    ("writeFile".toList, .int test.writeFile),
    ("filePerProc".toList, .int test.filePerProc),
    ("reorderTasks".toList, .int test.reorderTasks),
    ("reorderTasksRandom".toList, .int test.reorderTasksRandom),
    ("reorderTasksRandomSeed".toList, .int test.reorderTasksRandomSeed),
    ("randomOffset".toList, .int test.randomOffset),
    ("checkWrite".toList, .int test.checkWrite),
    ("checkRead".toList, .int test.checkRead),
    ("preallocate".toList, .int test.preallocate),
    ("useFileView".toList, .int test.useFileView),
    ("setAlignment".toList, .int test.setAlignment),
    ("storeFileOffset".toList, .int test.storeFileOffset),
    ("useSharedFilePointer".toList, .int test.useSharedFilePointer),
    ("useO_DIRECT".toList, .int test.useO_DIRECT),
    ("useStridedDatatype".toList, .int test.useStridedDatatype),
    ("keepFile".toList, .int test.keepFile),
    ("keepFileWithError".toList, .int test.keepFileWithError),
    ("quitOnError".toList, .int test.quitOnError),
    ("verbose".toList, .int test.verbose),
    ("data packet type".toList, .text (some test.dataPacketType.letter)),
    ("setTimeStampSignature/incompressibleSeed".toList, .int test.setTimeStampSignature),
    ("collective".toList, .int test.collective),
    ("segmentCount".toList, .int test.segmentCount),
    ("transferSize".toList, .int test.transferSize),
    ("blockSize".toList, .int test.blockSize)]

/-- The section `Options` of `ShowSetup`. -/
def options (ratio : Int → Int → List Char) (params : Param) : List Field :=
  let size value := Scalar.text (some (humanReadable ratio value))
  [("api".toList, .text params.api),
    ("apiVersion".toList, .text params.apiVersion),
    ("test filename".toList, .text (some params.testFileName)),
    ("access".toList, .text (some (if params.filePerProc ≠ 0 then "file-per-process".toList
      else "single-shared-file".toList))),
    ("type".toList, .text (some (if params.collective ≠ 0 then "collective".toList
      else "independent".toList))),
    ("segments".toList, .int params.segmentCount),
    ("ordering in a file".toList, .text (some (if params.randomOffset ≠ 0 then "random".toList
      else "sequential".toList)))] ++
  (if params.reorderTasks = 0 ∧ params.reorderTasksRandom = 0 then
    [("ordering inter file".toList, .text (some "no tasks offsets".toList))] else []) ++
  (if params.reorderTasks = 1 then
    [("ordering inter file".toList, .text (some "constant task offset".toList)),
      ("task offset".toList, .int params.taskPerNodeOffset)] else []) ++
  (if params.reorderTasksRandom = 1 then
    [("ordering inter file".toList, .text (some "random task offset".toList)),
      ("task offset".toList, .int params.taskPerNodeOffset),
      ("reorder random seed".toList, .int params.reorderTasksRandomSeed)] else []) ++
  [("tasks".toList, .int params.numTasks),
    ("clients per node".toList, .int params.tasksPerNode)] ++
  (if params.memoryPerTask ≠ 0 then
    [("memoryPerTask".toList, size params.memoryPerTask)] else []) ++
  (if params.memoryPerNode ≠ 0 then
    [("memoryPerNode".toList, size params.memoryPerNode)] else []) ++
  [("repetitions".toList, .int params.repetitions),
    ("xfersize".toList, size params.transferSize),
    ("blocksize".toList, size params.blockSize),
    ("aggregate filesize".toList, size params.expectedAggFileSize)] ++
  (if params.deadlineForStonewalling > 0 then
    [("stonewallingTime".toList, .int params.deadlineForStonewalling),
      ("stoneWallingWearOut".toList, .int params.stoneWallingWearOut)] else [])

/-- The section of `PrintReducedResult`. -/
def Reduced.fields (access : List Char) (reduced : Reduced) : List Field :=
  [("access".toList, .text (some access)),
    ("bwMiB".toList, .double reduced.bwMiB),
    ("blockKiB".toList, .double reduced.blockKiB),
    ("xferKiB".toList, .double reduced.xferKiB),
    ("openTime".toList, .double reduced.openTime),
    ("wrRdTime".toList, .double reduced.wrRdTime),
    ("closeTime".toList, .double reduced.closeTime),
    ("totalTime".toList, .double reduced.totalTime)]

/-- The section of `PrintRemoveTiming`. -/
def removeFields (time : Figure) : List Field :=
  [("access".toList, .text (some "remove".toList)), ("totalTime".toList, .double time)]

/-- The section `max` of `PrintShortSummary`. -/
def Test.maximaFields (test : Test) : List Field :=
  (if test.params.writeFile ≠ 0 then
    [("writeMiB".toList, .double test.maxima.writeMiB),
      ("writeMB".toList, .double test.maxima.writeMB)] else []) ++
  if test.params.readFile ≠ 0 then
    [("readMiB".toList, .double test.maxima.readMiB),
      ("readMB".toList, .double test.maxima.readMB)] else []

/-- The section of `PrintLongSummaryOneOperation`; three parameters are printed twice. -/
def Operation.fields (params : Param) (operation : List Char) (results : Operation) : List Field :=
  [("operation".toList, .text (some operation)),
    ("API".toList, .text params.api),
    ("TestID".toList, .int params.id),
    ("ReferenceNumber".toList, .int params.referenceNumber),
    ("segmentCount".toList, .int params.segmentCount),
    ("blockSize".toList, .int params.blockSize),
    ("transferSize".toList, .int params.transferSize),
    ("numTasks".toList, .int params.numTasks),
    ("tasksPerNode".toList, .int params.tasksPerNode),
    ("repetitions".toList, .int params.repetitions),
    ("filePerProc".toList, .int params.filePerProc),
    ("reorderTasks".toList, .int params.reorderTasks),
    ("taskPerNodeOffset".toList, .int params.taskPerNodeOffset),
    ("reorderTasksRandom".toList, .int params.reorderTasksRandom),
    ("reorderTasksRandomSeed".toList, .int params.reorderTasksRandomSeed),
    ("segmentCount".toList, .int params.segmentCount),
    ("blockSize".toList, .int params.blockSize),
    ("transferSize".toList, .int params.transferSize),
    ("bwMaxMIB".toList, .double results.bwMaxMIB),
    ("bwMinMIB".toList, .double results.bwMinMIB),
    ("bwMeanMIB".toList, .double results.bwMeanMIB),
    ("bwStdMIB".toList, .double results.bwStdMIB),
    ("OPsMax".toList, .double results.opsMax),
    ("OPsMin".toList, .double results.opsMin),
    ("OPsMean".toList, .double results.opsMean),
    ("OPsSD".toList, .double results.opsSD),
    ("MeanTime".toList, .double results.meanTime),
    ("xsizeMiB".toList, .double results.xsizeMiB)]

/-! ### The functions -/

/-- What is printed only under a condition. -/
def when (condition : Prop) [Decidable condition] (print : Print) : Print :=
  if condition then print else prints []

/-- A section without a name. -/
def printSection (fields : List Field) : Print :=
  prints [printStartSection, printFields fields, printEndSection]

/-- The part of `PrintHeader` for the arguments. -/
def printCommandLine (argv : List (List Char)) : Print :=
  prints [
    printKeyValStart "Command line".toList,
    write (argv.headD []),
    prints (argv.tail.map fun arg => write (' ' :: arg)),
    printKeyValEnd]

/-- The part of `PrintHeader` for `uname`. -/
def printMachine (verbose : Int) : Option Machine → Print
  | none => printKeyVal "Machine".toList (some "Unknown".toList)
  | some machine =>
      prints [
        printKeyValStart "Machine".toList,
        write (machine.sysname ++ ' ' :: machine.nodename),
        when (2 ≤ verbose) (write (' ' :: (machine.release ++ ' ' ::
          (machine.version ++ ' ' :: machine.machine)))),
        printKeyValEnd]

def printHeader (rank : ℕ) (run : Run) (verbose : Int) : Print :=
  when (rank = 0) (prints [
    printStartSection,
    printKeyVal "Began".toList (some run.began),
    printCommandLine run.argv,
    printMachine verbose run.machine,
    printArrayNamedStart "tests".toList])

def showFileSystemSize (fileSystem : FileSystem) : Print :=
  prints [
    write ("    , \"Path\": \"".toList ++ (fileSystem.realPath ++ "\",".toList)),
    write ("\"Capacity\": \"".toList ++ (fileSystem.totalFileSystemSize ++ ' ' ::
      (fileSystem.fileSystemUnit ++ ("\", \"Used Capacity\": \"".toList ++
        (fileSystem.usedFileSystemPercentage ++ "%\",".toList))))),
    write ("\"Inodes\": \"".toList ++ (fileSystem.totalInodes ++
      (" Mi\", \"Used Inodes\" : \"".toList ++
        (fileSystem.usedInodePercentage ++ "%\"\n".toList))))]

def showTestStart (run : Run) (test : Test) : Print :=
  prints [
    printStartSection,
    printKeyValInt "TestID".toList test.params.id,
    printKeyVal "StartTime".toList (some test.startTime),
    when (hasPrefix test.params.testFileName = false) (showFileSystemSize test.fileSystem),
    printNamedSectionStart "Parameters".toList,
    printFields (parameters run.tasksPerNode test.params),
    printEndSection]

def showTestEnd : Print := printEndSection

def showSetup (run : Run) (test : Test) : Print :=
  prints [
    printNamedSectionStart "Options".toList,
    printFields (options run.ratio test.params),
    printEndSection,
    printNamedArrayStart "Results".toList]

def printRepeatStart : Print := printArrayStart

def printRepeatEnd : Print := printArrayEnd

/-- The end of `ReduceIterResults`. -/
def printReducedResult (rank : ℕ) (verbose : Int) (access : List Char) (reduced : Reduced) :
    Print :=
  when (rank = 0 ∧ 0 ≤ verbose) (printSection (reduced.fields access))

def printRemoveTiming (rank : ℕ) (verbose : Int) (time : Figure) : Print :=
  when (rank = 0 ∧ 0 ≤ verbose) (printSection (removeFields time))

/-- One repetition of the loop of `TestIoSys`. -/
def Test.printRepetition (rank : ℕ) (test : Test) (rep : ℕ) : Print :=
  let params := test.params
  let results := test.repetition rep
  prints [
    printRepeatStart,
    when (params.writeFile ≠ 0 ∧ results.writeTimeElapsed = false)
      (printReducedResult rank params.verbose "write".toList results.write),
    when ((params.readFile ≠ 0 ∨ params.checkRead ≠ 0) ∧ results.readTimeElapsed = false)
      (printReducedResult rank params.verbose "read".toList results.read),
    when (params.keepFile = 0 ∧ ¬ (results.errorFound = true ∧ params.keepFileWithError ≠ 0))
      (printRemoveTiming rank params.verbose results.removeTime),
    printRepeatEnd]

def printLongSummaryOneOperation (rank : ℕ) (verbose : Int) (params : Param)
    (operation : List Char) (results : Operation) : Print :=
  when (rank = 0 ∧ 0 ≤ verbose) (printSection (results.fields params operation))

def printLongSummaryOneTest (rank : ℕ) (verbose : Int) (test : Test) : Print :=
  prints [
    when (test.params.writeFile ≠ 0)
      (printLongSummaryOneOperation rank verbose test.params "write".toList test.write),
    when (test.params.readFile ≠ 0)
      (printLongSummaryOneOperation rank verbose test.params "read".toList test.read)]

/-- The end of the array `Results` is here. -/
def printShortSummary (rank : ℕ) (verbose : Int) (test : Test) : Print :=
  when (rank = 0 ∧ 0 ≤ verbose) (prints [
    printArrayEnd,
    printNamedSectionStart "max".toList,
    printFields test.maximaFields,
    printEndSection])

/-- `TestIoSys`, of which tasks that do not participate print nothing. -/
def testIoSys (rank : ℕ) (run : Run) (test : Test) : Print :=
  when (rank < test.params.numTasks) (prints [
    when (rank = 0 ∧ 0 ≤ test.params.verbose) (showSetup run test),
    prints ((List.range test.params.repetitions.toNat).map (test.printRepetition rank)),
    if test.params.summary_every_test ≠ 0 then
      printLongSummaryOneTest rank test.params.verbose test
    else printShortSummary rank test.params.verbose test])

def printLongSummaryAllTests (rank : ℕ) (verbose : Int) (run : Run) : Print :=
  when (rank = 0 ∧ 0 ≤ verbose) (prints [
    printArrayEnd,
    printNamedArrayStart "summary".toList,
    prints (run.tests.map (printLongSummaryOneTest rank verbose)),
    printArrayEnd])

def printTestEnds (rank : ℕ) (verbose : Int) (run : Run) : Print :=
  if rank ≠ 0 ∨ verbose < 0 then printEndSection
  else prints [printKeyVal "Finished".toList (some run.finished), printEndSection]

/-- What a process prints of one test. -/
def Test.print (rank : ℕ) (run : Run) (test : Test) : Print :=
  prints [
    when (rank = 0 ∧ 0 ≤ test.params.verbose) (showTestStart run test),
    testIoSys rank run test,
    showTestEnd]

/-- `verbose` after the loop over the tests. -/
def Run.lastVerbose (run : Run) : Int := max 0 (run.tests.getLast run.listed).params.verbose

/-- `verbose` before it. -/
def Run.firstVerbose (run : Run) : Int := (run.tests.head run.listed).params.verbose

def Run.print (rank : ℕ) (run : Run) : Print :=
  prints [
    printHeader rank run run.firstVerbose,
    prints (run.tests.map (Test.print rank run)),
    printLongSummaryAllTests rank run.lastVerbose run,
    printTestEnds rank run.lastVerbose run]

/-- What a process writes after the line of `PrintEarlyHeader`. -/
def Run.document (rank : ℕ) (run : Run) : List Char := (run.print rank ⟨0, false⟩).1

/-- What a process of `ior_main` writes to `out_resultfile`. -/
def Run.resultText (rank : ℕ) (run : Run) : List Char :=
  (if rank = 0 then
    "IOR-".toList ++ (run.version ++ ": MPI Coordinated Test of Parallel I/O\n".toList)
    else []) ++ run.document rank

end HandsOn.Ior.Report
