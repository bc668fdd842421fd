import HandsOn.Daos.ShortReads
import HandsOn.Mpi.CallOrder

/-!
# Ranks that fail

The POSIX programs leave `write_data` and `read_data` at `fn_error` with nothing but a message,
and go on to `MPI_Finalize`; the MPI-IO programs call `MPI_Abort` there. The ranks of the POSIX
programs therefore wait for each other in vain unless they all fail alike.
-/

namespace HandsOn.Daos

open Semantics
open Mpi.CallOrder (Job)

/-- The collective calls of the programs. -/
inductive Collective where
  | fileOpen
  | exscan
  | barrier
  | fileClose
  | reduce (root : ℕ)
  | finalize
deriving DecidableEq

/-- The processes that a call cannot return without. That `MPI_Finalize` waits is allowed, not
required. -/
def Collective.Waits : Collective → ℕ → ℕ → Prop
  | fileOpen, _, _ => True
  | exscan, p, q => q < p
  | barrier, _, _ => True
  | fileClose, _, _ => True
  | reduce root, p, _ => p = root
  | finalize, _, _ => False

/-- What the calls of a rank return, and what the reads of headers leave in `data`. No error code
of MPI is negative. -/
structure Results where
  opened : Int32
  exscan : {ret : Int32 // 0 ≤ ret}
  science : ℕ → Int32
  data : ℕ → Science
  array : ℕ → Int32
  closed : Int32

/-- A rank comes to its end or to `fn_error`, with the value of `ret`, and has made collective
calls. -/
abbrev Run := ExceptT Int32 (StateM (List Collective))

def collective (call : Collective) : Run Unit := modify (· ++ [call])

/-- The end of a rank, and its calls. -/
def outcome (run : Run Int32) : Except Int32 Int32 × List Collective := run.run.run []

section Programs

variable (header : ArrayHeader) (results : Results)

/-- An iteration of `write_data` of `posix-write.c` -/
def posixWriteIteration (i : ℕ) : Except Int32 Unit := do
  if results.science i < 0 then throw (results.science i)
  if results.array i < 0 then throw (results.array i)

/-- An iteration of `read_data` of `posix-read.c` -/
def posixReadIteration (i : ℕ) : Except Int32 Unit := do
  if results.science i < 0 then throw (results.science i)
  (check header i (results.data i)).mapError fun _ => results.science i
  if results.array i < 0 then throw (results.array i)

/-- An iteration of `write_data` of `mpiio-write.c` -/
def mpiioWriteIteration (i : ℕ) : Except Int32 Unit := do
  if results.science i ≠ 0 then throw (results.science i)
  if results.array i ≠ 0 then throw (results.array i)

/-- An iteration of `read_data` of `mpiio-read.c` -/
def mpiioReadIteration (i : ℕ) : Except Int32 Unit := do
  if results.science i ≠ 0 then throw (results.science i)
  (check header i (results.data i)).mapError fun _ => results.science i
  if results.array i ≠ 0 then throw (results.array i)

/-- The loop of a rank. -/
def iterations (iteration : ℕ → Except Int32 Unit) : Except Int32 Unit :=
  (List.range header.iter).foldlM (fun _ i => iteration i) ()

/-- What `write_data` of `posix-write.c` and `read_data` of `posix-read.c` have in common. -/
def posixData (iteration : ℕ → Except Int32 Unit) : Run Int32 := do
  if results.opened < 0 then throw 0
  collective .exscan
  if results.exscan.val < 0 then throw results.exscan.val
  collective .barrier
  MonadExcept.ofExcept (iterations header iteration)
  if results.closed < 0 then throw results.closed
  collective .barrier
  collective (.reduce 0)
  return results.closed

/-- What `write_data` of `mpiio-write.c` and `read_data` of `mpiio-read.c` have in common. -/
def mpiioData (iteration : ℕ → Except Int32 Unit) : Run Int32 := do
  collective .fileOpen
  if results.opened ≠ 0 then throw results.opened
  collective .exscan
  if results.exscan.val ≠ 0 then throw results.exscan.val
  collective .barrier
  MonadExcept.ofExcept (iterations header iteration)
  collective .fileClose
  if results.closed ≠ 0 then throw results.closed
  collective .barrier
  collective (.reduce 0)
  return results.closed

end Programs

section Jobs

variable (nprocs : ℕ) (data : ℕ → Run Int32)

/-- `main` of the POSIX programs, which do not look at what became of `data`. -/
def posixMain : Job Collective where
  size := nprocs
  waits := Collective.Waits
  calls p := (outcome (data p)).2 ++ [.finalize]
  aborts _ := false

/-- `main` of the MPI-IO programs, with the `MPI_Abort` at `fn_error`. -/
def mpiioMain : Job Collective where
  size := nprocs
  waits := Collective.Waits
  calls p :=
    match outcome (data p) with
    | (.ok _, calls) => calls ++ [.finalize]
    | (.error _, calls) => calls
  aborts p :=
    match (outcome (data p)).1 with
    | .ok _ => false
    | .error _ => true

variable (header : ArrayHeader) (results : ℕ → Results)

/-- `posix-write` -/
def posixWriteJob : Job Collective :=
  posixMain nprocs fun p => posixData header (results p) (posixWriteIteration (results p))

/-- `posix-read` -/
def posixReadJob : Job Collective :=
  posixMain nprocs fun p => posixData header (results p) (posixReadIteration header (results p))

/-- `mpiio-write` -/
def mpiioWriteJob : Job Collective :=
  mpiioMain nprocs fun p => mpiioData header (results p) (mpiioWriteIteration (results p))

/-- `mpiio-read` -/
def mpiioReadJob : Job Collective :=
  mpiioMain nprocs fun p => mpiioData header (results p) (mpiioReadIteration header (results p))

end Jobs

/-! ### What a rank calls -/

variable {header : ArrayHeader} {results : Results} {iteration : ℕ → Except Int32 Unit}

/-- A rank of a POSIX program calls what its place of failure leaves it to. -/
theorem outcome_posixData : outcome (posixData header results iteration) =
    if results.opened < 0 then (.error 0, [])
    else
      match iterations header iteration with
      | .error ret => (.error ret, [.exscan, .barrier])
      | .ok _ =>
          if results.closed < 0 then (.error results.closed, [.exscan, .barrier])
          else (.ok results.closed, [.exscan, .barrier, .barrier, .reduce 0]) := by
  have scanned : ¬ results.exscan.val < 0 := Int32.not_lt.mpr results.exscan.property
  rw [posixData, if_neg scanned]
  by_cases opened : results.opened < 0
  · rw [if_pos opened, if_pos opened]
    rfl
  · rw [if_neg opened, if_neg opened]
    cases iterations header iteration with
    | error ret => rfl
    | ok _ =>
        by_cases closed : results.closed < 0
        · rw [if_pos closed, if_pos closed]
          rfl
        · rw [if_neg closed, if_neg closed]
          rfl

/-- A rank of an MPI-IO program calls the first ones of what it calls if all goes well, and all of
them if it does not come to `fn_error`. -/
theorem calls_mpiioData (header : ArrayHeader) (results : Results)
    (iteration : ℕ → Except Int32 Unit) :
    (∃ ret, (outcome (mpiioData header results iteration)).1 = .error ret) ∧
      (outcome (mpiioData header results iteration)).2 <+: [.fileOpen, .exscan, .barrier,
        .fileClose, .barrier, .reduce 0] ∨
    ∃ ret, outcome (mpiioData header results iteration) = (.ok ret, [.fileOpen, .exscan, .barrier,
      .fileClose, .barrier, .reduce 0]) := by
  rw [mpiioData]
  by_cases opened : results.opened ≠ 0
  · rw [if_pos opened]
    exact .inl ⟨⟨_, rfl⟩, ⟨_, rfl⟩⟩
  · rw [if_neg opened]
    by_cases scanned : results.exscan.val ≠ 0
    · rw [if_pos scanned]
      exact .inl ⟨⟨_, rfl⟩, ⟨_, rfl⟩⟩
    · rw [if_neg scanned]
      cases iterations header iteration with
      | error ret => exact .inl ⟨⟨_, rfl⟩, ⟨_, rfl⟩⟩
      | ok _ =>
          by_cases closed : results.closed ≠ 0
          · rw [if_pos closed]
            exact .inl ⟨⟨_, rfl⟩, ⟨_, rfl⟩⟩
          · rw [if_neg closed]
            exact .inr ⟨_, rfl⟩

/-- The loop of a rank comes to its end if no iteration fails. -/
theorem iterations_ok_iff : (∃ done, iterations header iteration = .ok done) ↔
    ∀ i < header.iter, iteration i = .ok () := by
  refine foldlM_range_ok_iff (I := fun _ _ => True) trivial ?_ fun _ _ _ _ _ _ => trivial
  intro i _ _ _
  exact ⟨fun ⟨_, succeeds⟩ => succeeds, fun succeeds => ⟨(), succeeds⟩⟩

/-- A call of `posix-write` after `open` fails. -/
def WriteFails (header : ArrayHeader) (results : Results) : Prop :=
  (∃ i < header.iter, results.science i < 0 ∨ results.array i < 0) ∨ results.closed < 0

/-- A call of `posix-read` after `open` fails, or a header is not the expected one. -/
def ReadFails (header : ArrayHeader) (results : Results) : Prop :=
  (∃ i < header.iter, results.science i < 0 ∨ results.data i ≠ expected header i ∨
    results.array i < 0) ∨ results.closed < 0

theorem posixWriteIteration_ok_iff (i : ℕ) : posixWriteIteration results i = .ok () ↔
    ¬ (results.science i < 0 ∨ results.array i < 0) := by
  rw [posixWriteIteration]
  by_cases science : results.science i < 0
  · rw [if_pos science]
    exact iff_of_false nofun (not_not.mpr (.inl science))
  · rw [if_neg science]
    by_cases array : results.array i < 0
    · rw [if_pos array]
      exact iff_of_false nofun (not_not.mpr (.inr array))
    · rw [if_neg array]
      exact iff_of_true rfl (not_or.mpr ⟨science, array⟩)

theorem posixReadIteration_ok_iff (i : ℕ) : posixReadIteration header results i = .ok () ↔
    ¬ (results.science i < 0 ∨ results.data i ≠ expected header i ∨ results.array i < 0) := by
  rw [posixReadIteration, ne_eq, ← check_ok_iff]
  by_cases science : results.science i < 0
  · rw [if_pos science]
    exact iff_of_false nofun (not_not.mpr (.inl science))
  · rw [if_neg science]
    cases checked : check header i (results.data i) with
    | error error => exact iff_of_false nofun (not_not.mpr (.inr (.inl nofun)))
    | ok _ =>
        by_cases array : results.array i < 0
        · rw [if_pos array]
          exact iff_of_false nofun (not_not.mpr (.inr (.inr array)))
        · rw [if_neg array]
          exact iff_of_true rfl (not_or.mpr ⟨science, not_or.mpr ⟨not_not.mpr rfl, array⟩⟩)

/-! ### The jobs -/

/-- All ranks fail in `open`, or all fail after it, or none fails. -/
def FailAlike (nprocs : ℕ) (results : ℕ → Results) (Fails : Results → Prop) : Prop :=
  (∀ p < nprocs, (results p).opened < 0) ∨
    (∀ p < nprocs, 0 ≤ (results p).opened ∧ Fails (results p)) ∨
    ∀ p < nprocs, 0 ≤ (results p).opened ∧ ¬ Fails (results p)

section Posix

variable {nprocs : ℕ} {data : ℕ → Run Int32} {results : ℕ → Results} {Fails : Results → Prop}

/-- What the ranks of a POSIX program call, by where they fail. -/
structure Course (data : ℕ → Run Int32) (results : ℕ → Results) (Fails : Results → Prop) :
    Prop where
  unopened : ∀ p, (results p).opened < 0 → (outcome (data p)).2 = []
  failed : ∀ p, 0 ≤ (results p).opened → Fails (results p) →
    (outcome (data p)).2 = [.exscan, .barrier]
  finished : ∀ p, 0 ≤ (results p).opened → ¬ Fails (results p) →
    (outcome (data p)).2 = [.exscan, .barrier, .barrier, .reduce 0]

theorem course_posixData (iteration : Results → ℕ → Except Int32 Unit)
    (fails : ∀ results, Fails results ↔
      ¬ (∀ i < header.iter, iteration results i = .ok ()) ∨ results.closed < 0) :
    Course (fun p => posixData header (results p) (iteration (results p))) results Fails := by
  refine ⟨fun p unopened => ?_, fun p opened failed => ?_, fun p opened finished => ?_⟩
  · rw [outcome_posixData, if_pos unopened]
  · rw [outcome_posixData, if_neg (Int32.not_lt.mpr opened)]
    rw [fails, ← iterations_ok_iff] at failed
    cases looped : iterations header (iteration (results p)) with
    | error ret => rfl
    | ok _ =>
        rw [looped] at failed
        rcases failed with never | closed
        · exact absurd ⟨_, rfl⟩ never
        · simp only [if_pos closed]
  · rw [outcome_posixData, if_neg (Int32.not_lt.mpr opened)]
    rw [fails, ← iterations_ok_iff, not_or, not_not] at finished
    obtain ⟨⟨_, looped⟩, closed⟩ := finished
    rw [looped]
    simp only [if_neg closed]

/-- A rank that has opened its file waits in the first barrier for one that has not. -/
theorem Course.hangs_of_unopened (course : Course data results Fails) {p q : ℕ}
    (bounded : p < nprocs) (below : q < nprocs) (opened : 0 ≤ (results p).opened)
    (unopened : (results q).opened < 0) : (posixMain nprocs data).Hangs := by
  have current : ((posixMain nprocs data).calls p)[1]? = some .barrier := by
    change ((outcome (data p)).2 ++ [.finalize])[1]? = some .barrier
    by_cases failed : Fails (results p)
    · rw [course.failed p opened failed]
      rfl
    · rw [course.finished p opened failed]
      rfl
  have skipped : ((posixMain nprocs data).calls q)[1]? = none := by
    change ((outcome (data q)).2 ++ [.finalize])[1]? = none
    rw [course.unopened q unopened]
    rfl
  refine Job.hangs_of_unmatched (fun _ _ => rfl) bounded below current trivial ?_
  rw [skipped]
  exact nofun

/-- A rank that finishes waits in the second barrier for one that fails after it has opened its
file. -/
theorem Course.hangs_of_failed (course : Course data results Fails) {p q : ℕ}
    (bounded : p < nprocs) (below : q < nprocs) (opened : 0 ≤ (results p).opened)
    (finished : ¬ Fails (results p)) (opened' : 0 ≤ (results q).opened)
    (failed : Fails (results q)) : (posixMain nprocs data).Hangs := by
  have current : ((posixMain nprocs data).calls p)[2]? = some .barrier := by
    change ((outcome (data p)).2 ++ [.finalize])[2]? = some .barrier
    rw [course.finished p opened finished]
    rfl
  have skipped : ((posixMain nprocs data).calls q)[2]? = some .finalize := by
    change ((outcome (data q)).2 ++ [.finalize])[2]? = some .finalize
    rw [course.failed q opened' failed]
    rfl
  refine Job.hangs_of_unmatched (fun _ _ => rfl) bounded below current trivial ?_
  rw [skipped]
  exact nofun

/-- The ranks of a POSIX program hang unless they fail alike. -/
theorem Course.hangs (course : Course data results Fails)
    (apart : ¬ FailAlike nprocs results Fails) : (posixMain nprocs data).Hangs := by
  simp only [FailAlike, not_or, not_forall] at apart
  obtain ⟨⟨p, bounded, opened⟩, ⟨q, below, other⟩, r, inside, another⟩ := apart
  have opened := Int32.not_lt.mp opened
  by_cases all : ∀ p < nprocs, 0 ≤ (results p).opened
  · have finished : ¬ Fails (results q) := fun failed => other ⟨all q below, failed⟩
    have failed : Fails (results r) := by
      by_contra finished
      exact another ⟨all r inside, finished⟩
    exact course.hangs_of_failed below inside (all q below) finished (all r inside) failed
  · simp only [not_forall] at all
    obtain ⟨s, within, unopened⟩ := all
    exact course.hangs_of_unopened bounded within opened (Int32.not_le.mp unopened)

/-- The ranks of a POSIX program stay together if they fail alike. -/
theorem Course.together (course : Course data results Fails)
    (alike : FailAlike nprocs results Fails) : (posixMain nprocs data).Together := by
  have same : ∃ common, ∀ p < nprocs, (posixMain nprocs data).calls p = common := by
    rcases alike with unopened | failed | finished
    · exact ⟨_, fun p bounded => congrArg (· ++ _) (course.unopened p (unopened p bounded))⟩
    · exact ⟨_, fun p bounded =>
        congrArg (· ++ _) (course.failed p (failed p bounded).1 (failed p bounded).2)⟩
    · exact ⟨_, fun p bounded =>
        congrArg (· ++ _) (course.finished p (finished p bounded).1 (finished p bounded).2)⟩
  obtain ⟨common, same⟩ := same
  refine Job.together_of_common common (fun p bounded => ?_) fun p bounded _ => same p bounded
  rw [same p bounded]

/-- The ranks of a POSIX program stay together exactly if they fail alike. -/
theorem Course.together_iff_alike (course : Course data results Fails) :
    (posixMain nprocs data).Together ↔ FailAlike nprocs results Fails := by
  refine ⟨fun together => ?_, course.together⟩
  by_contra apart
  exact together.not_hangs (course.hangs apart)

end Posix

theorem course_posixWrite (header : ArrayHeader) (results : ℕ → Results) :
    Course (fun p => posixData header (results p) (posixWriteIteration (results p))) results
      (WriteFails header) := by
  apply course_posixData
  intro results
  simp only [posixWriteIteration_ok_iff, WriteFails, not_forall, not_not, exists_prop]

theorem course_posixRead (header : ArrayHeader) (results : ℕ → Results) :
    Course (fun p => posixData header (results p) (posixReadIteration header (results p))) results
      (ReadFails header) := by
  apply course_posixData
  intro results
  simp only [posixReadIteration_ok_iff, ReadFails, not_forall, not_not, exists_prop]

/-- The ranks of `posix-write` and of `posix-read` stay together exactly if they fail alike; else
the job can hang. -/
theorem posix_together_iff (header : ArrayHeader) (nprocs : ℕ) (results : ℕ → Results) :
    (((posixWriteJob nprocs header results).Together ↔
        FailAlike nprocs results (WriteFails header)) ∧
      (¬ FailAlike nprocs results (WriteFails header) →
        (posixWriteJob nprocs header results).Hangs)) ∧
    ((posixReadJob nprocs header results).Together ↔
        FailAlike nprocs results (ReadFails header)) ∧
      (¬ FailAlike nprocs results (ReadFails header) →
        (posixReadJob nprocs header results).Hangs) := by
  have write := course_posixWrite header results
  have read := course_posixRead header results
  exact ⟨⟨write.together_iff_alike, write.hangs⟩, read.together_iff_alike, read.hangs⟩

/-- A rank whose calls transfer all they should, of a job with one iteration. -/
def smoothResults (header : ArrayHeader) : Results :=
  ⟨3, ⟨0, Int32.le_refl _⟩, fun _ => 12, expected header, fun _ => 4, 0⟩

/-- Two ranks, of which the first cannot write its first header, or read it. -/
theorem posix_not_together :
    let header : ArrayHeader :=
      ⟨1, 1, 1, by decide, by decide, by decide, by decide, by decide, by decide⟩
    let results : ℕ → Results := fun p =>
      if p = 0 then { smoothResults header with science := fun _ => -1 } else smoothResults header
    ¬ (posixWriteJob 2 header results).Together ∧ ¬ (posixReadJob 2 header results).Together := by
  intro header results
  have write := course_posixWrite header results
  have read := course_posixRead header results
  refine ⟨fun together => ?_, fun together => ?_⟩
  · refine together.not_hangs (write.hangs_of_failed (p := 1) (q := 0) (by decide) (by decide)
      (by decide) ?_ (by decide) ?_)
    · simp [WriteFails, results, smoothResults]
    · exact .inl ⟨0, by decide, .inl (by decide)⟩
  · refine together.not_hangs (read.hangs_of_failed (p := 1) (q := 0) (by decide) (by decide)
      (by decide) ?_ (by decide) ?_)
    · simp [ReadFails, results, smoothResults]
    · exact .inl ⟨0, by decide, .inl (by decide)⟩

/-! ### The MPI-IO programs -/

/-- The ranks of an MPI-IO program stay together, wherever they fail. -/
theorem mpiioMain_together (header : ArrayHeader) (nprocs : ℕ) (results : ℕ → Results)
    (iteration : Results → ℕ → Except Int32 Unit) :
    (mpiioMain nprocs fun p => mpiioData header (results p) (iteration (results p))).Together := by
  refine Job.together_of_common [.fileOpen, .exscan, .barrier, .fileClose, .barrier, .reduce 0,
    .finalize] (fun p _ => ?_) fun p _ remains => ?_
  · simp only [mpiioMain]
    rcases calls_mpiioData header (results p) (iteration (results p)) with
      ⟨⟨ret, failed⟩, begins⟩ | ⟨ret, finished⟩
    · cases ended : outcome (mpiioData header (results p) (iteration (results p))) with
      | mk last calls =>
          rw [ended] at failed begins
          cases failed
          exact begins.trans ⟨[.finalize], rfl⟩
    · rw [finished]
      exact List.prefix_refl _
  · simp only [mpiioMain] at remains ⊢
    rcases calls_mpiioData header (results p) (iteration (results p)) with
      ⟨⟨ret, failed⟩, _⟩ | ⟨ret, finished⟩
    · rw [failed] at remains
      cases remains
    · rw [finished]
      rfl

/-- The ranks of `mpiio-write` and of `mpiio-read` stay together, wherever they fail. -/
theorem mpiio_together (header : ArrayHeader) (nprocs : ℕ) (results : ℕ → Results) :
    (mpiioWriteJob nprocs header results).Together ∧
      (mpiioReadJob nprocs header results).Together :=
  ⟨mpiioMain_together header nprocs results mpiioWriteIteration,
    mpiioMain_together header nprocs results (mpiioReadIteration header)⟩

end HandsOn.Daos
