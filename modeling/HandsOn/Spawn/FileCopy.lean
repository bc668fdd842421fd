import HandsOn.Mpi.Collective
import Mathlib.Data.Nat.Notation

/-!
# The parallel file copy

The master broadcasts a control message, the name of the output file, and the input in
chunks; all processes reduce their status after opening the output. Process 0 of
`all_processes` is the master, the slaves follow.
-/

namespace HandsOn.Spawn

open Mpi.Collective

/-- The communicators that a process frees: the intercommunicator to the other side, called
`pcpslaves` by the master and `slavecomm` by a slave, and the merged one. -/
inductive Communicator where
  | spawned
  | allProcesses
deriving DecidableEq

/-- `BUFSIZE` -/
def bufsize : ℕ := 256 * 1024

/-- The text of a C string in a buffer. -/
def cString (buffer : List UInt8) : List UInt8 := buffer.takeWhile (· ≠ 0)

/-- `sprintf(buffer, text)` and `strcpy(buffer, text)` -/
def storeString (buffer text : List UInt8) : List UInt8 :=
  text ++ 0 :: buffer.drop (text.length + 1)

/-- `"exit"` -/
def exitText : List UInt8 := [101, 120, 105, 116]

/-- `"ready"` -/
def readyText : List UInt8 := [114, 101, 97, 100, 121]

/-- Where a process is: the next collective call. -/
inductive Pc where
  | control
  | outfilename
  | status
  | numread
  | data
  | freeSpawned
  | freeAll
  | finalize
  | exited
deriving DecidableEq

/-- The variables of a process, the input that the master has not read, and the output file.
`done` has no value before the copy loop. -/
structure Process where
  pc : Pc
  controlmsg : List UInt8
  outfilename : List UInt8
  mystatus : Int32
  allstatus : Int32
  numread : Int32
  done : Option Bool
  buf : List UInt8
  unread : List (List UInt8)
  output : List UInt8
  exitCode : Int32

/-- What the processes find: uninitialised memory, arguments, files, and what the system calls
do. -/
structure Environment where
  memory : ℕ → Process
  controlmsg_size : (memory 0).controlmsg.length = 80
  outfilename_size : (memory 0).outfilename.length = 256
  /-- The input file can be opened. -/
  infd : Bool
  argv3 : List UInt8
  argv3_text : ∀ byte ∈ argv3, byte ≠ 0
  argv3_size : argv3.length < 256
  /-- What `read` delivers before it returns 0. -/
  chunks : List (List UInt8)
  chunk_size : ∀ chunk ∈ chunks, 0 < chunk.length ∧ chunk.length ≤ bufsize
  /-- A process can open an output file of that name. -/
  canOpen : ℕ → List UInt8 → Bool
  /-- What a process's output file holds after a `write` of some bytes. -/
  write : ℕ → List UInt8 → List UInt8 → List UInt8

namespace Environment

variable (env : Environment)

/-- `open` of the output file, with `O_TRUNC`. -/
def openOutput (p : ℕ) (process : Process) : Process :=
  { process with
    pc := .status
    mystatus := if env.canOpen p (cString process.outfilename) then 0 else -1
    output := [] }

/-- `read(infd, buf, BUFSIZE)` at the head of the master's loop. -/
def readChunk (process : Process) : Process :=
  match process.unread with
  | [] => { process with pc := .numread, numread := 0 }
  | chunk :: rest =>
      { process with
        pc := .numread
        numread := Int32.ofNat chunk.length
        buf := chunk ++ process.buf.drop chunk.length
        unread := rest }

/-- The branch on `numread`: the data follows, or the loop ends. -/
def branchNumread (process : Process) : Process :=
  if 0 < process.numread then { process with pc := .data }
  else { process with pc := .freeSpawned, done := some true }

/-- The bytes of `buf` that are sent and written. -/
def filled (process : Process) : List UInt8 := process.buf.take process.numread.toNatClampNeg

/-- `write(outfd, buf, numread)` -/
def writeChunk (p : ℕ) (process : Process) : Process :=
  { process with output := env.write p process.output (filled process) }

/-- What a process does after its last message. -/
def closing (process : Process) : Act Communicator Process :=
  match process.pc with
  | .freeSpawned => .call (.free .spawned) (.bytes []) fun _ => { process with pc := .freeAll }
  | .freeAll =>
      .call (.free .allProcesses) (.bytes []) fun _ =>
        { process with pc := .finalize, exitCode := 0 }
  | .finalize => .call .finalize (.bytes []) fun _ => { process with pc := .exited }
  | _ => .finished

/-- `main` of `pcp-spawn-master.c` -/
def master (process : Process) : Act Communicator Process :=
  match process.pc with
  | .control =>
      .call (.bcast .allProcesses 0 80 .char) (.bytes process.controlmsg) fun _ =>
        if env.infd then { process with pc := .outfilename }
        else { process with pc := .finalize, exitCode := -1 }
  | .outfilename =>
      .call (.bcast .allProcesses 0 256 .char) (.bytes process.outfilename) fun _ =>
        env.openOutput 0 process
  | .status =>
      .call (.allreduce .allProcesses .min 1 .int) (.ints [process.mystatus]) fun got =>
        let allstatus := got.getInts.headD 0
        if allstatus = -1 then
          { process with pc := .finalize, allstatus := allstatus, exitCode := 1 }
        else readChunk { process with allstatus := allstatus, done := some false }
  | .numread =>
      .call (.bcast .allProcesses 0 1 .int) (.ints [process.numread]) fun _ =>
        branchNumread process
  | .data =>
      .call (.bcast .allProcesses 0 process.numread.toNatClampNeg .byte) (.bytes (filled process))
        fun _ => readChunk (env.writeChunk 0 process)
  | _ => closing process

/-- `main` of `pcp-spawn-slave.c` -/
def slave (p : ℕ) (process : Process) : Act Communicator Process :=
  match process.pc with
  | .control =>
      .call (.bcast .allProcesses 0 80 .char) (.bytes process.controlmsg) fun got =>
        let process := { process with controlmsg := got.getBytes }
        if cString process.controlmsg = exitText then
          { process with pc := .finalize, exitCode := 1 }
        else { process with pc := .outfilename }
  | .outfilename =>
      .call (.bcast .allProcesses 0 256 .char) (.bytes process.outfilename) fun got =>
        env.openOutput p { process with outfilename := got.getBytes }
  | .status =>
      .call (.allreduce .allProcesses .min 1 .int) (.ints [process.mystatus]) fun got =>
        let allstatus := got.getInts.headD 0
        if allstatus = -1 then
          { process with pc := .finalize, allstatus := allstatus, exitCode := -1 }
        else { process with pc := .numread, allstatus := allstatus, done := some false }
  | .numread =>
      .call (.bcast .allProcesses 0 1 .int) (.ints [process.numread]) fun got =>
        branchNumread { process with numread := got.getInts.headD 0 }
  | .data =>
      .call (.bcast .allProcesses 0 process.numread.toNatClampNeg .byte) (.bytes (filled process))
        fun got =>
          let received := got.getBytes
          let process :=
            { process with buf := received ++ process.buf.drop received.length }
          { env.writeChunk p process with pc := .numread }
  | _ => closing process

/-- The processes at their first collective call on `all_processes`. -/
def start (p : ℕ) : Process :=
  let memory := env.memory p
  if p = 0 then
    { memory with
      pc := .control
      controlmsg := storeString memory.controlmsg (if env.infd then readyText else exitText)
      outfilename := storeString memory.outfilename env.argv3
      done := none
      unread := env.chunks }
  else
    { memory with pc := .control, done := none, unread := [] }

/-- The master and its slaves. -/
def pcp (slaves : ℕ) : Program Communicator Process where
  size := slaves + 1
  act p process := if p = 0 then env.master process else env.slave p process
  start := env.start

end Environment

end HandsOn.Spawn
