import HandsOn.Spawn.FileCopy

/-!
# Master and slaves in lockstep

Both programs branch on broadcast or reduced data only, so that they make the same calls
whatever the environment does.
-/

namespace HandsOn.Spawn.Environment

open Mpi.Collective Semantics

variable (env : Environment)

/-- The calls of the copy loop. -/
def loopCalls : List (List UInt8) → List (Call Communicator)
  | [] => [.bcast .allProcesses 0 1 .int]
  | chunk :: rest =>
      .bcast .allProcesses 0 1 .int :: .bcast .allProcesses 0 chunk.length .byte :: loopCalls rest

/-- The calls after the copy loop. -/
def closingCalls : List (Call Communicator) :=
  [.free .spawned, .free .allProcesses, .finalize]

/-- All processes can open their files. -/
def Copies (slaves : ℕ) : Prop :=
  env.infd = true ∧ ∀ p < slaves + 1, env.canOpen p env.argv3 = true

instance (slaves : ℕ) : Decidable (env.Copies slaves) :=
  inferInstanceAs (Decidable (_ ∧ ∀ p < slaves + 1, _))

/-- The calls of every process. -/
def calls (slaves : ℕ) : List (Call Communicator) :=
  .bcast .allProcesses 0 80 .char ::
    if env.infd then
      .bcast .allProcesses 0 256 .char :: .allreduce .allProcesses .min 1 .int ::
        if env.Copies slaves then loopCalls env.chunks ++ closingCalls else [.finalize]
    else [.finalize]

variable {env} {slaves : ℕ} {locals : ℕ → Process}

/-- All processes are at the same call. -/
def At (slaves : ℕ) (locals : ℕ → Process) (pc : Pc) : Prop :=
  ∀ p < slaves + 1, (locals p).pc = pc

/-! ### The end -/

/-- From `MPI_Finalize` on. -/
theorem finalize_lockstep (here : At slaves locals .finalize) :
    (env.pcp slaves).Lockstep locals [.finalize] fun p => { locals p with pc := .exited } := by
  refine .call (fun _ => .bytes []) (fun p _ => { locals p with pc := .exited })
    (fun p bounded => ?_) trivial (fun _ _ => trivial) rfl (.finished fun p _ => ?_)
  · simp [pcp, master, slave, closing, here p bounded]
  · simp [pcp, master, slave, closing]

/-- From the second `MPI_Comm_free` on. -/
theorem freeAll_lockstep (here : At slaves locals .freeAll) :
    (env.pcp slaves).Lockstep locals [.free .allProcesses, .finalize]
      fun p => { locals p with pc := .exited, exitCode := 0 } := by
  refine .call (fun _ => .bytes []) (fun p _ => { locals p with pc := .finalize, exitCode := 0 })
    (fun p bounded => ?_) trivial (fun _ _ => trivial) rfl (finalize_lockstep fun _ _ => rfl)
  simp [pcp, master, slave, closing, here p bounded]

/-- From the first `MPI_Comm_free` on. -/
theorem closing_lockstep (here : At slaves locals .freeSpawned) :
    (env.pcp slaves).Lockstep locals closingCalls
      fun p => { locals p with pc := .exited, exitCode := 0 } := by
  refine .call (fun _ => .bytes []) (fun p _ => { locals p with pc := .freeAll })
    (fun p bounded => ?_) trivial (fun _ _ => trivial) rfl (freeAll_lockstep fun _ _ => rfl)
  simp [pcp, master, slave, closing, here p bounded]

/-! ### The copy loop -/

/-- The master's next call. -/
theorem act_master (process : Process) : (env.pcp slaves).act 0 process = env.master process := rfl

/-- A slave's next call. -/
theorem act_slave {p : ℕ} (later : p ≠ 0) (process : Process) :
    (env.pcp slaves).act p process = env.slave p process :=
  if_neg later

/-- A slave takes over the master's `numread`. -/
def received (numread : Int32) (process : Process) : Process := { process with numread := numread }

/-- All processes branch on the master's `numread`. -/
theorem numread_lockstep {rest : List (Call Communicator)} {final : ℕ → Process}
    (here : At slaves locals .numread)
    (later : (env.pcp slaves).Lockstep
      (fun p => branchNumread (received (locals 0).numread (locals p))) rest final) :
    (env.pcp slaves).Lockstep locals (.bcast .allProcesses 0 1 .int :: rest) final := by
  refine .call (fun p => .ints [(locals p).numread]) (fun p got =>
    branchNumread (received (if p = 0 then (locals 0).numread else got.getInts.headD 0) (locals p)))
    (fun p bounded => ?_) (Nat.succ_pos slaves) (fun _ _ _ => ⟨rfl, rfl⟩) rfl ?_
  · have pc := here p bounded
    by_cases first : p = 0
    · subst first
      rw [act_master, master, pc]
      rfl
    · rw [act_slave first]
      simp only [if_neg first]
      generalize locals p = process at pc ⊢
      cases process
      cases pc
      rfl
  · have same : ∀ p, (if p = 0 then (locals 0).numread else (locals 0).numread) =
        (locals 0).numread := fun p => ite_self _
    simp only [Payload.getInts, List.headD_cons, same]
    exact later

/-- What a process does with the data it has received, or sent. -/
def copied (env : Environment) (data : List UInt8) (p : ℕ) (process : Process) : Process :=
  if p = 0 then readChunk (env.writeChunk 0 process)
  else { env.writeChunk p { process with buf := data ++ process.buf.drop data.length } with
    pc := .numread }

/-- All processes write the master's data. -/
theorem data_lockstep {rest : List (Call Communicator)} {final : ℕ → Process} {count : ℕ}
    (here : At slaves locals .data)
    (counts : ∀ p < slaves + 1, (locals p).numread.toNatClampNeg = count)
    (filled_size : (filled (locals 0)).length = count)
    (later : (env.pcp slaves).Lockstep (fun p => copied env (filled (locals 0)) p (locals p))
      rest final) :
    (env.pcp slaves).Lockstep locals (.bcast .allProcesses 0 count .byte :: rest) final := by
  refine .call (fun p => .bytes (filled (locals p)))
    (fun p got => copied env got.getBytes p (locals p))
    (fun p bounded => ?_) (Nat.succ_pos slaves) (fun p _ first => ?_) rfl later
  · have pc := here p bounded
    rw [← counts p bounded]
    by_cases first : p = 0
    · subst first
      rw [act_master, master, pc]
      rfl
    · rw [act_slave first]
      simp only [copied, if_neg first]
      generalize locals p = process at pc ⊢
      cases process
      cases pc
      rfl
  · subst first
    exact ⟨by decide, filled_size⟩

theorem readChunk_pc (process : Process) : (readChunk process).pc = .numread := by
  rw [readChunk]
  split <;> rfl

theorem readChunk_done (process : Process) : (readChunk process).done = process.done := by
  rw [readChunk]
  split <;> rfl

theorem readChunk_output (process : Process) : (readChunk process).output = process.output := by
  rw [readChunk]
  split <;> rfl

/-- The processes are at the head of the loop with `chunks` to come, and have written
`outputs`. -/
structure Looping (env : Environment) (slaves : ℕ) (chunks : List (List UInt8))
    (outputs : ℕ → List UInt8) (locals : ℕ → Process) : Prop where
  here : At slaves locals .numread
  entered : ∀ p < slaves + 1, (locals p).done = some false
  output : ∀ p < slaves + 1, (locals p).output = outputs p
  read : ∃ process, process.unread = chunks ∧ locals 0 = readChunk process

namespace Looping

variable {chunk : List UInt8} {rest : List (List UInt8)} {outputs : ℕ → List UInt8}

/-- All processes go on with a chunk that is not empty. -/
theorem branch (looping : Looping env slaves (chunk :: rest) outputs locals)
    (some_bytes : 0 < chunk.length) (fits : chunk.length < 2 ^ 31) (p : ℕ) :
    branchNumread (received (locals 0).numread (locals p)) =
      { locals p with numread := Int32.ofNat chunk.length, pc := .data } := by
  obtain ⟨process, unread, read⟩ := looping.read
  have count : (locals 0).numread = Int32.ofNat chunk.length := by rw [read, readChunk, unread]
  have positive : 0 < Int32.ofNat chunk.length := by
    rw [Int32.lt_iff_toInt_lt, Int32.toInt_ofNat_of_lt fits]
    exact Int.natCast_pos.mpr some_bytes
  rw [count]
  exact if_pos positive

/-- The master sends the chunk. -/
theorem filled_chunk (looping : Looping env slaves (chunk :: rest) outputs locals)
    (some_bytes : 0 < chunk.length) (fits : chunk.length < 2 ^ 31) :
    filled (branchNumread (received (locals 0).numread (locals 0))) = chunk := by
  obtain ⟨process, unread, read⟩ := looping.read
  rw [looping.branch some_bytes fits, filled, Int32.toNatClampNeg_ofNat_of_lt fits, read,
    readChunk, unread]
  exact List.take_left

/-- All processes write the chunk and come back to the head of the loop. -/
theorem next (looping : Looping env slaves (chunk :: rest) outputs locals)
    (some_bytes : 0 < chunk.length) (fits : chunk.length < 2 ^ 31) :
    Looping env slaves rest (fun p => env.write p (outputs p) chunk) fun p =>
      copied env chunk p (branchNumread (received (locals 0).numread (locals p))) := by
  have branch := looping.branch some_bytes fits
  refine ⟨fun p bounded => ?_, fun p bounded => ?_, fun p bounded => ?_, ?_⟩
  · rw [branch, copied]
    split
    · exact readChunk_pc _
    · rfl
  · rw [branch, copied]
    split
    · exact (readChunk_done _).trans (looping.entered p bounded)
    · exact looping.entered p bounded
  · by_cases first : p = 0
    · subst first
      rw [copied, if_pos rfl, readChunk_output, writeChunk, looping.filled_chunk some_bytes fits]
      rw [branch, looping.output 0 bounded]
    · rw [branch, copied, if_neg first, writeChunk, filled, Int32.toNatClampNeg_ofNat_of_lt fits]
      rw [looping.output p bounded]
      exact congrArg (env.write p (outputs p)) List.take_left
  · obtain ⟨process, unread, read⟩ := looping.read
    refine ⟨_, ?_, by rw [copied, if_pos rfl]⟩
    rw [branch, read, readChunk, unread]
    rfl

end Looping

/-- The loop copies all chunks on all processes. -/
theorem loop_lockstep {chunks : List (List UInt8)} {outputs : ℕ → List UInt8}
    (sizes : ∀ chunk ∈ chunks, 0 < chunk.length ∧ chunk.length ≤ bufsize)
    (looping : Looping env slaves chunks outputs locals) :
    ∃ final, (env.pcp slaves).Lockstep locals (loopCalls chunks ++ closingCalls) final ∧
      ∀ p < slaves + 1, (final p).pc = .exited ∧ (final p).done = some true ∧
        (final p).output = chunks.foldl (env.write p) (outputs p) := by
  induction chunks generalizing outputs locals with
  | nil =>
      obtain ⟨process, unread, read⟩ := looping.read
      have stop : (locals 0).numread = 0 := by rw [read, readChunk, unread]
      have branch : ∀ p, branchNumread (received (locals 0).numread (locals p)) =
          { locals p with numread := 0, pc := .freeSpawned, done := some true } := fun p => by
        rw [stop]
        rfl
      refine ⟨_, numread_lockstep looping.here (closing_lockstep fun p _ => ?_),
        fun p bounded => ?_⟩
      · rw [branch]
      · rw [branch]
        exact ⟨rfl, rfl, looping.output p bounded⟩
  | cons chunk rest ih =>
      obtain ⟨some_bytes, small⟩ := sizes chunk List.mem_cons_self
      have fits : chunk.length < 2 ^ 31 := by
        rw [bufsize] at small
        omega
      have branch := looping.branch some_bytes fits
      have announced : (Int32.ofNat chunk.length).toNatClampNeg = chunk.length :=
        Int32.toNatClampNeg_ofNat_of_lt fits
      have own := looping.filled_chunk some_bytes fits
      obtain ⟨final, lockstep, written⟩ :=
        ih (fun other later => sizes other (List.mem_cons_of_mem _ later))
          (looping.next some_bytes fits)
      refine ⟨final, numread_lockstep looping.here (data_lockstep (fun p _ => ?_) (fun p _ => ?_)
        (congrArg List.length own) ?_), written⟩
      · exact congrArg Process.pc (branch p)
      · exact (congrArg (fun process => process.numread.toNatClampNeg) (branch p)).trans announced
      · rw [own]
        exact lockstep

/-! ### The status of the output files -/

/-- `mystatus`, by whether the output file could be opened. -/
def statusOf (opened : Bool) : Int32 := if opened then 0 else -1

theorem apply_statusOf (left right : Bool) :
    Op.min.apply (statusOf left) (statusOf right) = statusOf (left && right) := by
  cases left <;> cases right <;> decide

theorem foldl_statusOf (first : Bool) (rest : List Bool) :
    (rest.map statusOf).foldl Op.min.apply (statusOf first) = statusOf (first && rest.all id) := by
  induction rest generalizing first with
  | nil => rw [List.all_nil, Bool.and_true, List.map_nil, List.foldl_nil]
  | cons next rest ih =>
      rw [List.map_cons, List.foldl_cons, apply_statusOf, ih, List.all_cons, Bool.and_assoc]
      rfl

/-- The reduction of single elements. -/
theorem reduce_singletons (op : Op) (first : Int32) (rest : List Int32) :
    op.reduce (.ints [first] :: rest.map fun value => .ints [value]) =
      .ints [rest.foldl op.apply first] := by
  rw [Op.reduce, List.foldl_map]
  have folded :
      rest.foldl (fun total value => total.zipWith op.apply (Payload.ints [value]).getInts)
        (Payload.ints [first]).getInts = [rest.foldl op.apply first] := by
    induction rest generalizing first with
    | nil => rfl
    | cons next rest ih => exact ih (op.apply first next)
  rw [folded]

/-- The reduced status tells whether all could open their files. -/
theorem reduce_statusOf (opened : ℕ → Bool) (slaves : ℕ) :
    Op.min.reduce ((List.range (slaves + 1)).map fun p => .ints [statusOf (opened p)]) =
      .ints [statusOf ((List.range (slaves + 1)).all opened)] := by
  rw [List.range_succ_eq_map, List.map_cons, List.all_cons, List.map_map, List.all_map]
  have rest := reduce_singletons .min (statusOf (opened 0))
    (((List.range slaves).map (opened ∘ Nat.succ)).map statusOf)
  rw [foldl_statusOf, List.all_map, List.map_map, List.map_map] at rest
  exact rest

/-- What a process does with the reduced status. -/
def decided (allstatus : Int32) (p : ℕ) (process : Process) : Process :=
  if p = 0 then
    if allstatus = -1 then { process with pc := .finalize, allstatus := allstatus, exitCode := 1 }
    else readChunk { process with allstatus := allstatus, done := some false }
  else if allstatus = -1 then
    { process with pc := .finalize, allstatus := allstatus, exitCode := -1 }
  else { process with pc := .numread, allstatus := allstatus, done := some false }

/-- All processes branch on the reduced status. -/
theorem status_lockstep (could : ℕ → Bool) {rest : List (Call Communicator)}
    {final : ℕ → Process} (here : At slaves locals .status)
    (mystatus : ∀ p, (locals p).mystatus = statusOf (could p))
    (later : (env.pcp slaves).Lockstep
      (fun p => decided (statusOf ((List.range (slaves + 1)).all could)) p (locals p)) rest final) :
    (env.pcp slaves).Lockstep locals (.allreduce .allProcesses .min 1 .int :: rest) final := by
  have reduced : (Call.allreduce Communicator.allProcesses .min 1 .int).result (slaves + 1)
      (fun p => some (.ints [statusOf (could p)])) =
        some (.ints [statusOf ((List.range (slaves + 1)).all could)]) := by
    refine (if_pos fun p _ => rfl).trans ?_
    rw [← reduce_statusOf, List.filterMap_eq_map']
  refine .call (fun p => .ints [statusOf (could p)])
    (fun p got => decided (got.getInts.headD 0) p (locals p))
    (fun p bounded => ?_) trivial (fun _ _ => ⟨rfl, rfl⟩) reduced later
  · have pc := here p bounded
    rw [← mystatus p]
    by_cases first : p = 0
    · subst first
      rw [act_master, master, pc]
      rfl
    · rw [act_slave first]
      simp only [decided, if_neg first]
      generalize locals p = process at pc ⊢
      cases process
      cases pc
      rfl

/-! ### The first two messages -/

/-- All processes use the master's output file name. -/
def named (env : Environment) (outfilename : List UInt8) (p : ℕ) (process : Process) : Process :=
  env.openOutput p (if p = 0 then process else { process with outfilename := outfilename })

/-- All processes open an output file. -/
theorem outfilename_lockstep {rest : List (Call Communicator)} {final : ℕ → Process}
    (here : At slaves locals .outfilename) (size : (locals 0).outfilename.length = 256)
    (later : (env.pcp slaves).Lockstep (fun p => named env (locals 0).outfilename p (locals p))
      rest final) :
    (env.pcp slaves).Lockstep locals (.bcast .allProcesses 0 256 .char :: rest) final := by
  refine .call (fun p => .bytes (locals p).outfilename)
    (fun p got => named env got.getBytes p (locals p))
    (fun p bounded => ?_) (Nat.succ_pos slaves) (fun p _ first => ?_) rfl later
  · have pc := here p bounded
    by_cases first : p = 0
    · subst first
      rw [act_master, master, pc]
      rfl
    · rw [act_slave first]
      simp only [named, if_neg first]
      generalize locals p = process at pc ⊢
      cases process
      cases pc
      rfl
  · subst first
    exact ⟨by decide, size⟩

/-- What a process does with the control message. -/
def controlled (env : Environment) (controlmsg : List UInt8) (p : ℕ) (process : Process) :
    Process :=
  if p = 0 then
    if env.infd then { process with pc := .outfilename }
    else { process with pc := .finalize, exitCode := -1 }
  else if cString controlmsg = exitText then
    { process with controlmsg := controlmsg, pc := .finalize, exitCode := 1 }
  else { process with controlmsg := controlmsg, pc := .outfilename }

/-- The slaves branch on the control message, the master on the input file. -/
theorem control_lockstep {rest : List (Call Communicator)} {final : ℕ → Process}
    (here : At slaves locals .control) (size : (locals 0).controlmsg.length = 80)
    (later : (env.pcp slaves).Lockstep (fun p => controlled env (locals 0).controlmsg p (locals p))
      rest final) :
    (env.pcp slaves).Lockstep locals (.bcast .allProcesses 0 80 .char :: rest) final := by
  refine .call (fun p => .bytes (locals p).controlmsg)
    (fun p got => controlled env got.getBytes p (locals p))
    (fun p bounded => ?_) (Nat.succ_pos slaves) (fun p _ first => ?_) rfl later
  · have pc := here p bounded
    by_cases first : p = 0
    · subst first
      rw [act_master, master, pc]
      rfl
    · rw [act_slave first]
      simp only [controlled, if_neg first]
      generalize locals p = process at pc ⊢
      cases process
      cases pc
      rfl
  · subst first
    exact ⟨by decide, size⟩

/-! ### From the start -/

/-- A text that has been stored is read back. -/
theorem cString_storeString {buffer text : List UInt8} (proper : ∀ byte ∈ text, byte ≠ 0) :
    cString (storeString buffer text) = text := by
  rw [cString, storeString, List.takeWhile_append_of_pos fun byte listed =>
    decide_eq_true (proper byte listed)]
  exact List.append_nil text

theorem length_storeString {buffer text : List UInt8} (fits : text.length < buffer.length) :
    (storeString buffer text).length = buffer.length := by
  rw [storeString, List.length_append, List.length_cons, List.length_drop]
  omega

theorem start_controlmsg : (env.start 0).controlmsg.length = 80 := by
  refine (length_storeString ?_).trans env.controlmsg_size
  rw [env.controlmsg_size]
  cases env.infd <;> decide

theorem start_outfilename : (env.start 0).outfilename.length = 256 := by
  refine (length_storeString ?_).trans env.outfilename_size
  exact env.argv3_size.trans_eq env.outfilename_size.symm

theorem cString_outfilename : cString (env.start 0).outfilename = env.argv3 :=
  cString_storeString env.argv3_text

/-- The control message tells whether the master could open the input. -/
theorem cString_controlmsg : cString (env.start 0).controlmsg = exitText ↔ env.infd = false := by
  have sent : cString (env.start 0).controlmsg = if env.infd then readyText else exitText := by
    refine cString_storeString ?_
    cases env.infd <;> simp [readyText, exitText]
  rw [sent]
  cases env.infd <;> decide

/-- Without input all processes go to `MPI_Finalize`. -/
theorem controlled_exit (missing : env.infd = false) (p : ℕ) :
    (controlled env (env.start 0).controlmsg p (env.start p)).pc = .finalize ∧
      (controlled env (env.start 0).controlmsg p (env.start p)).done = none := by
  rw [controlled]
  split
  · rename_i first
    subst first
    rw [missing]
    exact ⟨rfl, rfl⟩
  · rename_i later
    rw [if_pos (cString_controlmsg.mpr missing)]
    exact ⟨rfl, congrArg Process.done (if_neg later)⟩

/-- With input all processes go on to the output file name. -/
theorem controlled_ready (present : env.infd = true) (p : ℕ) :
    controlled env (env.start 0).controlmsg p (env.start p) =
      { env.start p with pc := .outfilename, controlmsg := (env.start 0).controlmsg } := by
  by_cases first : p = 0
  · subst first
    rw [controlled, if_pos rfl, if_pos present]
  · have stays : cString (env.start 0).controlmsg ≠ exitText := fun exits =>
      Bool.false_ne_true ((cString_controlmsg.mp exits).symm.trans present)
    rw [controlled, if_neg first, if_neg stays]

/-- The processes after the output file name has been broadcast. -/
def opened (env : Environment) (p : ℕ) : Process :=
  { env.start p with
    pc := .status
    controlmsg := (env.start 0).controlmsg
    outfilename := (env.start 0).outfilename
    mystatus := statusOf (env.canOpen p env.argv3)
    output := [] }

theorem named_start (p : ℕ) :
    named env (env.start 0).outfilename p
        { env.start p with pc := .outfilename, controlmsg := (env.start 0).controlmsg } =
      opened env p := by
  by_cases first : p = 0
  · subst first
    rw [named, if_pos rfl, openOutput]
    simp only [cString_outfilename]
    rfl
  · rw [named, if_neg first, openOutput]
    simp only [cString_outfilename]
    rfl

theorem start_done (p : ℕ) : (env.start p).done = none := by
  rw [start]
  split <;> rfl

theorem all_canOpen (present : env.infd = true) :
    (List.range (slaves + 1)).all (fun p => env.canOpen p env.argv3) = true ↔
      env.Copies slaves := by
  rw [List.all_eq_true]
  exact ⟨fun all => ⟨present, fun p bounded => all p (List.mem_range.mpr bounded)⟩,
    fun copies p listed => copies.2 p (List.mem_range.mp listed)⟩

/-- If all can open their files, they enter the copy loop. -/
theorem looping_decided (env : Environment) (slaves : ℕ) :
    Looping env slaves env.chunks (fun _ => []) fun p => decided 0 p (opened env p) := by
  refine ⟨fun p _ => ?_, fun p _ => ?_, fun p _ => ?_, ?_⟩
  · rw [decided]
    split
    · exact readChunk_pc _
    · rfl
  · rw [decided]
    split
    · exact readChunk_done _
    · rfl
  · rw [decided]
    split
    · exact readChunk_output _
    · rfl
  · exact ⟨{ opened env 0 with allstatus := 0, done := some false }, rfl, rfl⟩

/-- If some cannot, all go to `MPI_Finalize`. -/
theorem decided_exit (p : ℕ) (process : Process) :
    (decided (-1) p process).pc = .finalize ∧ (decided (-1) p process).done = process.done := by
  rw [decided]
  split <;> exact ⟨rfl, rfl⟩

/-- How a run ends: where no process has entered the copy loop, or where all have copied. -/
structure Ended (env : Environment) (slaves : ℕ) (process : Process) (p : ℕ) : Prop where
  exited : process.pc = .exited
  entered : process.done ≠ none ↔ env.Copies slaves
  copied : env.Copies slaves →
    process.done = some true ∧ process.output = env.chunks.foldl (env.write p) []

/-- All processes make the same calls from the status of their output files on. -/
theorem opened_lockstep (slaves : ℕ) (present : env.infd = true) :
    ∃ final, (env.pcp slaves).Lockstep (opened env) (.allreduce .allProcesses .min 1 .int ::
        if env.Copies slaves then loopCalls env.chunks ++ closingCalls else [.finalize]) final ∧
      ∀ p < slaves + 1, Ended env slaves (final p) p := by
  by_cases copies : env.Copies slaves
  · obtain ⟨final, lockstep, ended⟩ := loop_lockstep env.chunk_size (looping_decided env slaves)
    rw [if_pos copies]
    refine ⟨final, status_lockstep (fun p => env.canOpen p env.argv3)
      (fun _ _ => rfl) (fun _ => rfl) ?_, fun p bounded => ?_⟩
    · rw [(all_canOpen present).mpr copies]
      exact lockstep
    · obtain ⟨exited, done, output⟩ := ended p bounded
      refine ⟨exited, iff_of_true ?_ copies, fun _ => ⟨done, output⟩⟩
      rw [done]
      exact Option.some_ne_none true
  · have refused := Bool.eq_false_iff.mpr (mt (all_canOpen present).mp copies)
    rw [if_neg copies]
    refine ⟨_, status_lockstep (fun p => env.canOpen p env.argv3)
      (fun _ _ => rfl) (fun _ => rfl) (finalize_lockstep fun p _ => ?_),
      fun p _ => ⟨rfl, iff_of_false (fun entered => entered ?_) copies,
        fun copied => absurd copied copies⟩⟩
    · rw [refused]
      exact (decided_exit p _).1
    · rw [refused]
      exact (decided_exit p _).2.trans (start_done p)

/-- All processes make the same calls, whatever the environment does. -/
theorem start_lockstep (env : Environment) (slaves : ℕ) :
    ∃ final, (env.pcp slaves).Lockstep env.start (env.calls slaves) final ∧
      ∀ p < slaves + 1, Ended env slaves (final p) p := by
  have control : At slaves env.start .control := fun p _ => by
    rw [start]
    split <;> rfl
  by_cases present : env.infd = true
  · have controlled_eq : (fun p => controlled env (env.start 0).controlmsg p (env.start p)) = _ :=
      funext (controlled_ready present)
    obtain ⟨final, lockstep, ended⟩ := opened_lockstep slaves present
    refine ⟨final, ?_, ended⟩
    rw [calls, if_pos present]
    refine control_lockstep control start_controlmsg ?_
    rw [controlled_eq]
    refine outfilename_lockstep (fun _ _ => rfl) start_outfilename ?_
    rw [funext named_start]
    exact lockstep
  · have missing := Bool.eq_false_iff.mpr present
    have never : ¬ env.Copies slaves := fun copies => present copies.1
    have same : env.calls slaves = [.bcast .allProcesses 0 80 .char, .finalize] := by
      rw [calls, if_neg present]
    rw [same]
    refine ⟨_, control_lockstep control start_controlmsg (finalize_lockstep fun p _ => ?_),
      fun p _ => ⟨rfl, ?_, fun copies => absurd copies never⟩⟩
    · exact (controlled_exit missing p).1
    · exact iff_of_false (fun entered => entered (controlled_exit missing p).2) never

/-! ### Every run -/

theorem branchNumread_done {process : Process} (entered : process.done ≠ none) :
    (branchNumread process).done ≠ none := by
  rw [branchNumread]
  split
  · exact entered
  · exact Option.some_ne_none true

/-- No step of a process gives `done` back. -/
theorem done_kept (p : ℕ) (process : Process) (call : Call Communicator) (sent : Payload)
    (resume : Payload → Process) (got : Payload)
    (act : (env.pcp slaves).act p process = .call call sent resume)
    (entered : process.done ≠ none) :
    (resume got).done ≠ none := by
  by_cases first : p = 0
  · subst first
    rw [act_master] at act
    cases here : process.pc <;> simp only [master, closing, here] at act <;> cases act
    · dsimp only
      split <;> exact entered
    · exact entered
    · dsimp only
      split
      · exact entered
      · rw [readChunk_done]
        exact Option.some_ne_none false
    · exact branchNumread_done entered
    · rw [readChunk_done]
      exact entered
    all_goals exact entered
  · rw [act_slave first] at act
    cases here : process.pc <;> simp only [slave, closing, here] at act <;> cases act
    · dsimp only
      split <;> exact entered
    · exact entered
    · dsimp only
      split
      · exact entered
      · exact Option.some_ne_none false
    · exact branchNumread_done entered
    all_goals exact entered

/-- Master and slaves stay in step. -/
structure InStep (env : Environment) (slaves : ℕ) : Prop where
  /-- The calls that two processes enter in the same place agree. -/
  matching : ∀ state, (env.pcp slaves).system.Reachable state →
    ∀ p < slaves + 1, ∀ q < slaves + 1, ∀ (n : ℕ) (own other : Call Communicator × Payload),
      (state.history p)[n]? = some own → (state.history q)[n]? = some other → own.1 = other.1
  /-- What a process sends has the elements that its call announces. -/
  sends : ∀ state, (env.pcp slaves).system.Reachable state →
    ∀ p < slaves + 1, ∀ (n : ℕ) (entry : Call Communicator × Payload),
      (state.history p)[n]? = some entry → entry.1.Sends p entry.2
  /-- No process is left waiting, even if calls return as late as they may. -/
  progress : ∀ state, (env.pcp slaves).system.Reachable state →
    (∃ p < slaves + 1, ¬ (env.pcp slaves).Finished state p) →
      ∃ action next, (env.pcp slaves).step state action = some next ∧
        (env.pcp slaves).Due state action
  /-- No run goes on for ever. -/
  ends : ∃ most, ∀ trace state, (env.pcp slaves).system.Steps (env.pcp slaves).initial trace state →
    trace.length ≤ most
  /-- Finished processes have finalised after the same calls. -/
  complete : ∀ state, (env.pcp slaves).system.Reachable state →
    ∀ p < slaves + 1, (env.pcp slaves).Finished state p →
      (state.history p).map Prod.fst = env.calls slaves ∧ (state.locals p).pc = .exited
  /-- A process enters the copy loop only if all processes do. -/
  together : ∀ state, (env.pcp slaves).system.Reachable state →
    ∀ p < slaves + 1, (state.locals p).done ≠ none →
      ∀ final, (env.pcp slaves).system.Reachable final →
        ∀ q < slaves + 1, (env.pcp slaves).Finished final q → (final.locals q).done ≠ none
  /-- Where writes store all their bytes, the outputs of processes that have entered the loop
  are the input. -/
  copies : (∀ p output bytes, env.write p output bytes = output ++ bytes) →
    ∀ state, (env.pcp slaves).system.Reachable state → ∀ p < slaves + 1,
      (env.pcp slaves).Finished state p → (state.locals p).done ≠ none →
        (state.locals p).output = env.chunks.flatten

/-- Writing all bytes of all chunks. -/
theorem foldl_append (output : List UInt8) (chunks : List (List UInt8)) :
    chunks.foldl (fun output bytes => output ++ bytes) output = output ++ chunks.flatten := by
  induction chunks generalizing output with
  | nil => exact (List.append_nil output).symm
  | cons chunk rest ih => rw [List.foldl_cons, ih, List.flatten_cons, List.append_assoc]

theorem inStep (env : Environment) (slaves : ℕ) : InStep env slaves := by
  obtain ⟨final, lockstep, ended⟩ := start_lockstep env slaves
  refine ⟨?matching, ?sends, ?progress, ?ends, ?complete, ?together, ?copies⟩
  case matching =>
    intro state reachable p bounded q below n own other listed listed'
    exact lockstep.matching reachable bounded below listed listed'
  case sends =>
    intro state reachable p bounded n entry listed
    exact lockstep.sends reachable bounded listed
  case progress =>
    intro state reachable unfinished
    exact lockstep.progress reachable unfinished
  case ends =>
    exact ⟨_, fun trace state run => lockstep.length_le run⟩
  case complete =>
    intro state reachable p bounded finished
    obtain ⟨calls, position⟩ := lockstep.of_finished reachable bounded finished
    rw [position]
    exact ⟨calls, (ended p bounded).exited⟩
  case together =>
    intro state reachable p bounded entered other reachable' q below finished
    have copies := (ended p bounded).entered.mp
      (lockstep.keeps (P := fun _ process => process.done ≠ none) reachable bounded (done_kept p)
        entered)
    rw [(lockstep.of_finished reachable' below finished).2]
    exact (ended q below).entered.mpr copies
  case copies =>
    intro full state reachable p bounded finished entered
    rw [(lockstep.of_finished reachable bounded finished).2] at entered ⊢
    rw [((ended p bounded).copied ((ended p bounded).entered.mp entered)).2]
    have same : env.write p = fun output bytes => output ++ bytes :=
      funext fun output => funext fun bytes => full p output bytes
    rw [same, foldl_append]
    rfl

/-! A master and two slaves copy two chunks; most broadcasts return before all have entered. -/

private def twoSlaves : Environment where
  memory _ :=
    { pc := .exited, controlmsg := List.replicate 80 1, outfilename := List.replicate 256 1
      mystatus := 7, allstatus := 7, numread := 7, done := some true, buf := [9], unread := []
      output := [9], exitCode := 7 }
  controlmsg_size := List.length_replicate
  outfilename_size := List.length_replicate
  infd := true
  argv3 := [111, 117, 116]
  argv3_text := by simp
  argv3_size := by decide
  chunks := [[1, 2], [3]]
  chunk_size := by decide
  canOpen _ _ := true
  write _ output bytes := output ++ bytes

private def twoSlavesActions : List Action :=
  let early : List Action := [.enter 2, .enter 0, .leave 0, .leave 2, .enter 1, .leave 1]
  let together : List Action := [.enter 1, .enter 0, .enter 2, .leave 2, .leave 0, .leave 1]
  early ++ early ++ together ++ (List.replicate 8 early).flatten

private def twoSlavesRun := (System.exec (twoSlaves.pcp 2).step (twoSlaves.pcp 2).initial
  twoSlavesActions).get (by decide +kernel)

private theorem twoSlavesRun_exec : System.exec (twoSlaves.pcp 2).step (twoSlaves.pcp 2).initial
    twoSlavesActions = some twoSlavesRun :=
  (Option.some_get _).symm

/-- A process that has exited has nothing left to do. -/
theorem finished_of_exited {state : State Communicator Process} {p : ℕ}
    (exited : (state.locals p).pc = .exited) (outside : state.inside p = false) :
    (env.pcp slaves).Finished state p := by
  refine ⟨?_, outside⟩
  simp only [pcp, master, slave, closing, exited, ite_self]

theorem inStep_two_slaves : ∀ p < 3, (twoSlaves.pcp 2).Finished twoSlavesRun.2 p ∧
    (twoSlavesRun.2.locals p).output = [1, 2, 3] := by
  have reachable : (twoSlaves.pcp 2).system.Reachable twoSlavesRun.2 :=
    System.reachable_of_exec rfl twoSlavesRun_exec
  have exited : ∀ p < 3, (twoSlavesRun.2.locals p).pc = .exited ∧
      twoSlavesRun.2.inside p = false ∧ (twoSlavesRun.2.locals p).done = some true := by
    decide +kernel
  intro p bounded
  obtain ⟨pc, outside, done⟩ := exited p bounded
  have finished : (twoSlaves.pcp 2).Finished twoSlavesRun.2 p := finished_of_exited pc outside
  exact ⟨finished, (inStep twoSlaves 2).copies (fun _ _ _ => rfl) _ reachable p bounded finished
    (by rw [done]; exact Option.some_ne_none true)⟩

end HandsOn.Spawn.Environment
