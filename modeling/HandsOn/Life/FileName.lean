import HandsOn.Semantics.CString

/-!
# The names of the checkpoints

`MLIFEIO_Checkpoint` and `MLIFEIO_Restart` of `mlife-io-mpiio.c` and `mlife-io-pnetcdf.c` print
the prefix, the iteration and a suffix into a buffer of 64, of which `snprintf` fills 62 at most.
A prefix may have 63.
-/

namespace HandsOn.Life

open HandsOn.Semantics

/-- The implementations of the checkpoint that write files. -/
inductive BackEnd where
  | mpiio
  | pnetcdf
deriving DecidableEq

namespace BackEnd

/-- `filename` in `MLIFEIO_Checkpoint`. -/
def checkpointFilename (optPrefix : List Char) (iter : Int32) : BackEnd → List Char
  | mpiio => snprintf 63 (optPrefix ++ "-".toList ++ decimal iter ++ ".chkpt".toList)
  | pnetcdf => snprintf 63 (optPrefix ++ "-".toList ++ decimal iter ++ ".nc".toList)

/-- `filename` in `MLIFEIO_Restart`. -/
def restartFilename (optPrefix : List Char) (iter : Int32) : BackEnd → List Char
  | mpiio => snprintf 63 (optPrefix ++ "-".toList ++ decimal iter ++ ".chkpt".toList)
  | pnetcdf => snprintf 63 (optPrefix ++ "-".toList ++ decimal iter ++ ".nc".toList)

/-- The text after the iteration. -/
def suffix : BackEnd → List Char
  | mpiio => ".chkpt".toList
  | pnetcdf => ".nc".toList

/-- Each checkpoint of a run is stored in its own file, and restarted from there. -/
structure OwnFiles (backEnd : BackEnd) (optPrefix : List Char) (ntimes : Int32) : Prop where
  distinct : ∀ first second : Int32, 0 ≤ first → first < ntimes → 0 ≤ second → second < ntimes →
    first ≠ second →
      backEnd.checkpointFilename optPrefix first ≠ backEnd.checkpointFilename optPrefix second
  same : ∀ iter, backEnd.restartFilename optPrefix iter = backEnd.checkpointFilename optPrefix iter

end BackEnd

/-! ### Digits -/

/-- A suffix has no digit in front. -/
theorem takeWhile_suffix (backEnd : BackEnd) (count : ℕ) :
    (backEnd.suffix.take count).takeWhile Char.isDigit = [] := by
  cases backEnd <;> cases count <;> rfl

/-- The digits that are kept end where the suffix begins. -/
theorem takeWhile_digits (backEnd : BackEnd) {number size : ℕ}
    (sized : (Nat.toDigits 10 number).length ≤ size) :
    ((Nat.toDigits 10 number ++ backEnd.suffix).take size).takeWhile Char.isDigit =
      Nat.toDigits 10 number := by
  have digits : ∀ digit ∈ Nat.toDigits 10 number, digit.isDigit :=
    fun digit member => Nat.isDigit_of_mem_toDigits (by decide) (by decide) member
  rw [List.take_append, List.take_of_length_le sized, List.takeWhile_append_of_pos digits,
    takeWhile_suffix, List.append_nil]

/-! ### Iterations -/

/-- The last iteration of a run. -/
theorem toInt_last {ntimes : Int32} (positive : 0 < ntimes) :
    (ntimes - 1).toInt = ntimes.toInt - 1 := by
  have several := Int32.lt_iff_toInt_lt.mp positive
  have high := ntimes.toInt_lt
  rw [Int32.toInt_zero] at several
  rw [Int32.toInt_sub, Int32.toInt_one, Int.bmod_eq_of_le (by omega) (by omega)]

/-- No iteration has more digits than the last one. -/
theorem length_decimal_le {iter ntimes : Int32} (nonneg : 0 ≤ iter) (inside : iter < ntimes) :
    (decimal iter).length ≤ (decimal (ntimes - 1)).length := by
  have low := Int32.le_iff_toInt_le.mp nonneg
  have below := Int32.lt_iff_toInt_lt.mp inside
  have last := toInt_last (Int32.lt_of_le_of_lt nonneg inside)
  rw [Int32.toInt_zero] at low
  rw [decimal_of_nonneg nonneg,
    decimal_of_nonneg (Int32.le_iff_toInt_le.mpr (by rw [last, Int32.toInt_zero]; omega)), last]
  exact length_toDigits_mono (by omega)

/-- A run of one iteration. -/
theorem eq_zero_of_single {iter ntimes : Int32} (single : ntimes ≤ 1) (nonneg : 0 ≤ iter)
    (inside : iter < ntimes) : iter = 0 := by
  have low := Int32.le_iff_toInt_le.mp nonneg
  have below := Int32.lt_iff_toInt_lt.mp inside
  have high := Int32.le_iff_toInt_le.mp single
  rw [Int32.toInt_zero] at low
  rw [Int32.toInt_one] at high
  refine Int32.toInt.inj ?_
  rw [Int32.toInt_zero]
  omega

/-! ### Names -/

namespace BackEnd

theorem checkpointFilename_eq (backEnd : BackEnd) (optPrefix : List Char) (iter : Int32) :
    backEnd.checkpointFilename optPrefix iter =
      (optPrefix ++ '-' :: (decimal iter ++ backEnd.suffix)).take 62 := by
  cases backEnd <;>
    rw [checkpointFilename, snprintf, List.append_assoc, List.append_assoc] <;>
    rfl

theorem restartFilename_eq (backEnd : BackEnd) (optPrefix : List Char) (iter : Int32) :
    backEnd.restartFilename optPrefix iter = backEnd.checkpointFilename optPrefix iter := by
  cases backEnd <;> rfl

/-- Names that keep all digits of their iterations are different. -/
theorem checkpointFilename_injective (backEnd : BackEnd) {optPrefix : List Char}
    {first second : Int32} (nonnegFirst : 0 ≤ first) (nonnegSecond : 0 ≤ second)
    (keptFirst : optPrefix.length + (decimal first).length ≤ 61)
    (keptSecond : optPrefix.length + (decimal second).length ≤ 61)
    (equal : backEnd.checkpointFilename optPrefix first =
      backEnd.checkpointFilename optPrefix second) : first = second := by
  rw [checkpointFilename_eq, checkpointFilename_eq, List.take_append, List.take_append] at equal
  have tails := List.append_cancel_left equal
  obtain ⟨kept, size⟩ : ∃ kept, 62 - optPrefix.length = kept + 1 :=
    ⟨61 - optPrefix.length, by omega⟩
  rw [size, List.take_succ_cons, List.take_succ_cons, List.cons.injEq] at tails
  rw [decimal_of_nonneg nonnegFirst] at keptFirst tails
  rw [decimal_of_nonneg nonnegSecond] at keptSecond tails
  have digits := congrArg (List.takeWhile Char.isDigit) tails.2
  rw [takeWhile_digits backEnd (by omega), takeWhile_digits backEnd (by omega)] at digits
  have values := toDigits_injective digits
  have positiveFirst := Int32.le_iff_toInt_le.mp nonnegFirst
  have positiveSecond := Int32.le_iff_toInt_le.mp nonnegSecond
  refine Int32.toInt.inj ?_
  rw [Int32.toInt_zero] at positiveFirst positiveSecond
  omega

/-- Iterations whose digits begin alike share a name if only these digits are kept. -/
theorem checkpointFilename_shared (backEnd : BackEnd) {optPrefix common : List Char}
    {first second : Int32} (long : 61 ≤ optPrefix.length + common.length)
    (beginsFirst : common <+: decimal first) (beginsSecond : common <+: decimal second) :
    backEnd.checkpointFilename optPrefix first = backEnd.checkpointFilename optPrefix second := by
  obtain ⟨restFirst, isFirst⟩ := beginsFirst
  obtain ⟨restSecond, isSecond⟩ := beginsSecond
  have truncated : ∀ rest : List Char, (optPrefix ++ '-' :: (common ++ rest)).take 62 =
      (optPrefix ++ '-' :: common).take 62 := by
    intro rest
    rw [← List.cons_append, ← List.append_assoc, List.take_append_of_le_length]
    simp only [List.length_append, List.length_cons]
    omega
  rw [checkpointFilename_eq, checkpointFilename_eq, ← isFirst, ← isSecond, List.append_assoc,
    List.append_assoc, truncated, truncated]

/-- The digits of a number and of ten times this number begin alike. -/
theorem digits_shared {number : ℕ} (positive : 0 < number) :
    Nat.toDigits 10 number <+: Nat.toDigits 10 (10 * number) :=
  ⟨Nat.toDigits 10 0, Nat.toDigits_append_toDigits (d := 0) (by decide) positive (by decide)⟩

/-- Two numbers below a bound whose common digits are but one less than those of the largest. -/
theorem exists_shared {bound : ℕ} (many : 1 < bound) :
    ∃ first second : ℕ, first < second ∧ second < bound ∧ ∃ common : List Char,
      (Nat.toDigits 10 (bound - 1)).length = common.length + 1 ∧
      common <+: Nat.toDigits 10 first ∧ common <+: Nat.toDigits 10 second := by
  by_cases small : bound - 1 < 10
  · refine ⟨0, 1, by decide, many, [], ?_, List.nil_prefix, List.nil_prefix⟩
    rw [Nat.toDigits_of_lt_base small]
    rfl
  · have positive : 0 < (bound - 1) / 10 := by omega
    refine ⟨(bound - 1) / 10, 10 * ((bound - 1) / 10), by omega, by omega,
      Nat.toDigits 10 ((bound - 1) / 10), ?_, List.prefix_refl _, digits_shared positive⟩
    rw [Nat.toDigits_of_base_le (by decide) (by omega), List.length_append]
    rfl

/-- Two iterations of a run share a file if the last one has too many digits for the prefix. -/
theorem exists_same_file (backEnd : BackEnd) {optPrefix : List Char} {ntimes : Int32}
    (many : 1 < ntimes) (long : 61 < optPrefix.length + (decimal (ntimes - 1)).length) :
    ∃ first second : Int32, 0 ≤ first ∧ first < second ∧ second < ntimes ∧
      backEnd.checkpointFilename optPrefix first =
        backEnd.checkpointFilename optPrefix second := by
  have several := Int32.lt_iff_toInt_lt.mp many
  rw [Int32.toInt_one] at several
  have high := ntimes.toInt_lt
  have last := toInt_last (Int32.lt_trans (by decide) many)
  rw [decimal_of_nonneg (Int32.le_iff_toInt_le.mpr (by rw [last, Int32.toInt_zero]; omega)),
    last] at long
  obtain ⟨first, second, ordered, inside, common, length, beginsFirst, beginsSecond⟩ :=
    exists_shared (show 1 < ntimes.toInt.toNat by omega)
  have shorter : (ntimes.toInt - 1).toNat = ntimes.toInt.toNat - 1 := by omega
  rw [shorter, length] at long
  have valueFirst := Int32.toInt_ofNat_of_lt (n := first) (by omega)
  have valueSecond := Int32.toInt_ofNat_of_lt (n := second) (by omega)
  rw [← decimal_ofNat (by omega)] at beginsFirst beginsSecond
  refine ⟨Int32.ofNat first, Int32.ofNat second, Int32.le_iff_toInt_le.mpr ?_,
    Int32.lt_iff_toInt_lt.mpr ?_, Int32.lt_iff_toInt_lt.mpr ?_,
    backEnd.checkpointFilename_shared (by omega) beginsFirst beginsSecond⟩
  · rw [valueFirst, Int32.toInt_zero]
    omega
  · omega
  · omega

/-- The checkpoints of a run have files of their own exactly if the run has one iteration at
most, or the prefix and the digits of its last iteration have 61 characters at most. -/
theorem ownFiles_iff (backEnd : BackEnd) (optPrefix : List Char) (ntimes : Int32) :
    backEnd.OwnFiles optPrefix ntimes ↔
      ntimes ≤ 1 ∨ optPrefix.length + (decimal (ntimes - 1)).length ≤ 61 := by
  constructor
  · intro own
    by_contra excluded
    rw [not_or, Int32.not_le, Nat.not_le] at excluded
    obtain ⟨first, second, nonneg, ordered, inside, equal⟩ :=
      backEnd.exists_same_file excluded.1 excluded.2
    exact own.distinct first second nonneg (Int32.lt_trans ordered inside)
      (Int32.le_trans nonneg (Int32.le_of_lt ordered)) inside (Int32.ne_of_lt ordered) equal
  · intro condition
    refine ⟨fun first second nonnegFirst insideFirst nonnegSecond insideSecond different equal =>
      different ?_, backEnd.restartFilename_eq optPrefix⟩
    cases condition with
    | inl single =>
      rw [eq_zero_of_single single nonnegFirst insideFirst,
        eq_zero_of_single single nonnegSecond insideSecond]
    | inr kept =>
      have keptFirst := length_decimal_le nonnegFirst insideFirst
      have keptSecond := length_decimal_le nonnegSecond insideSecond
      exact backEnd.checkpointFilename_injective nonnegFirst nonnegSecond (by omega)
        (by omega) equal

/-- A prefix of 61 characters leaves no digit of the iteration. -/
theorem long_prefix_shares_file :
    (List.replicate 61 'p').length ≤ 63 ∧
      ¬ mpiio.OwnFiles (List.replicate 61 'p') 2 ∧
      ¬ pnetcdf.OwnFiles (List.replicate 61 'p') 2 := by
  have shared (backEnd : BackEnd) : ¬ backEnd.OwnFiles (List.replicate 61 'p') 2 := by
    intro own
    refine own.distinct 0 1 (by decide) (by decide) (by decide) (by decide) (by decide) ?_
    exact backEnd.checkpointFilename_shared (by decide) (List.nil_prefix (l := decimal 0))
      List.nil_prefix
  exact ⟨by decide, shared mpiio, shared pnetcdf⟩

end BackEnd

end HandsOn.Life
