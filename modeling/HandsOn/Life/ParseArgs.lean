import HandsOn.Semantics.CString
import HandsOn.Semantics.CommandLine

/-!
# The options of the life programs

`MLIFE_parse_args` of `mlife.c`, `mlifeomp.c` and `mlife2d.c`. Rank 0 goes through the options,
and the others receive most of what it has found. The case of `-r` has no `break`, and the
iteration to restart from is sent to all ranks but stored by none.
-/

namespace HandsOn.Life.ParseArgs

open HandsOn.Semantics

/-- The letters of `getopt(argc, argv, "x:y:i:p:r:")`. -/
inductive Letter where
  | x
  | y
  | i
  | r
  | p
deriving DecidableEq

/-- The variables that the options set. -/
structure Options where
  optRows : Int32
  optCols : Int32
  optIter : Int32
  optRestartIter : Int32
  optPrefix : Buffer 63

/-- The values that the rest of the program uses. -/
structure Values where
  rows : Int32
  cols : Int32
  iterations : Int32
  restartIter : Int32
  optPrefix : List Char
deriving DecidableEq

namespace Options

/-- The initial values. -/
def defaults : Options where
  optRows := 25
  optCols := 70
  optIter := 10
  optRestartIter := -1
  optPrefix := ⟨"mlife".toList ++ List.replicate 59 '\x00', by decide⟩

/-- The `switch` over an option. -/
def set (options : Options) : Letter × Text → Options
  | (.x, optarg) => { options with optCols := atoi optarg.chars }
  | (.y, optarg) => { options with optRows := atoi optarg.chars }
  | (.i, optarg) => { options with optIter := atoi optarg.chars }
  -- falls through to the case of `-p`
  | (.r, optarg) =>
      { options with
        optRestartIter := atoi optarg.chars
        optPrefix := options.optPrefix.strncpy optarg }
  | (.p, optarg) => { options with optPrefix := options.optPrefix.strncpy optarg }

/-- The loop over the options. -/
def getopt (line : List (Letter × Text)) : Options := line.foldl set defaults

/-- `myargs` as rank 0 fills it. -/
def myargs (options : Options) : Vector Int32 5 :=
  #v[options.optRows, options.optCols, options.optIter, options.optRestartIter,
    Int32.ofNat ((cString options.optPrefix.chars).length + 1)]

/-- The variables after both broadcasts. -/
def bcast (options : Options) (myargs : Vector Int32 5) (root : Buffer 63) : Options :=
  { options with
    optRows := myargs[0]
    optCols := myargs[1]
    optIter := myargs[2]
    optPrefix := root.copy options.optPrefix myargs[4].toInt.toNat }

/-- `MLIFE_parse_args` on a rank. -/
def parseArgs (line : List (Letter × Text)) (rank : ℕ) : Options :=
  let root := getopt line
  let options := if rank = 0 then root else defaults
  options.bcast root.myargs root.optPrefix

def values (options : Options) : Values where
  rows := options.optRows
  cols := options.optCols
  iterations := options.optIter
  restartIter := options.optRestartIter
  optPrefix := cString options.optPrefix.chars

end Options

/-- The value of the last option with each letter, or the default. -/
def given (line : List (Letter × Text)) : Values where
  rows := ((lastArgument .y line).map fun optarg => atoi optarg.chars).getD 25
  cols := ((lastArgument .x line).map fun optarg => atoi optarg.chars).getD 70
  iterations := ((lastArgument .i line).map fun optarg => atoi optarg.chars).getD 10
  restartIter := ((lastArgument .r line).map fun optarg => atoi optarg.chars).getD (-1)
  optPrefix := ((lastArgument .p line).map fun optarg => optarg.chars.take 63).getD "mlife".toList

/-- The letters whose options store a prefix. -/
def Letter.storesPrefix : Letter → Bool
  | .r | .p => true
  | _ => false

/-- The prefix that rank 0 has after the loop. -/
def storedPrefix (line : List (Letter × Text)) : List Char :=
  ((lastOf Letter.storesPrefix line).map fun option => option.2.chars.take 63).getD "mlife".toList

/-! ### Rank 0 -/

theorem cString_defaults : cString Options.defaults.optPrefix.chars = "mlife".toList := by
  decide

namespace Options

variable (line : List (Letter × Text))

theorem getopt_optRows : (getopt line).optRows = (given line).rows := by
  refine foldl_lastArgument set optRows .y (fun optarg => atoi optarg.chars) (fun _ _ => rfl) ?_
    defaults line
  rintro options ⟨letter, optarg⟩ other
  cases letter with
  | y => exact absurd rfl other
  | _ => rfl

theorem getopt_optCols : (getopt line).optCols = (given line).cols := by
  refine foldl_lastArgument set optCols .x (fun optarg => atoi optarg.chars) (fun _ _ => rfl) ?_
    defaults line
  rintro options ⟨letter, optarg⟩ other
  cases letter with
  | x => exact absurd rfl other
  | _ => rfl

theorem getopt_optIter : (getopt line).optIter = (given line).iterations := by
  refine foldl_lastArgument set optIter .i (fun optarg => atoi optarg.chars) (fun _ _ => rfl) ?_
    defaults line
  rintro options ⟨letter, optarg⟩ other
  cases letter with
  | i => exact absurd rfl other
  | _ => rfl

theorem getopt_optRestartIter : (getopt line).optRestartIter = (given line).restartIter := by
  refine foldl_lastArgument set optRestartIter .r (fun optarg => atoi optarg.chars)
    (fun _ _ => rfl) ?_
    defaults line
  rintro options ⟨letter, optarg⟩ other
  cases letter with
  | r => exact absurd rfl other
  | _ => rfl

/-- The prefix is that of the last option that stores one. -/
theorem getopt_optPrefix : cString (getopt line).optPrefix.chars = storedPrefix line := by
  rw [storedPrefix, ← cString_defaults]
  refine foldl_lastOf set (fun options => cString options.optPrefix.chars) Letter.storesPrefix
    (fun optarg => optarg.chars.take 63) ?_ ?_ defaults line
  · rintro options ⟨letter, optarg⟩ stores
    cases letter with
    | r | p => exact cString_strncpy options.optPrefix optarg
    | _ => exact absurd stores Bool.false_ne_true
  · rintro options ⟨letter, optarg⟩ other
    cases letter with
    | r | p => exact absurd rfl other
    | _ => rfl

/-- Rank 0 has every value as it is given, but for the prefix. -/
theorem getopt_values :
    (getopt line).values = { given line with optPrefix := storedPrefix line } := by
  rw [values, getopt_optRows, getopt_optCols, getopt_optIter, getopt_optRestartIter,
    getopt_optPrefix]

/-! ### All ranks -/

/-- The length of a prefix is an `int`. -/
theorem toNat_length (options : Options) :
    (options.myargs[4]).toInt.toNat = (cString options.optPrefix.chars).length + 1 := by
  have length := options.optPrefix.length
  have shorter : (cString options.optPrefix.chars).length ≤ options.optPrefix.chars.length :=
    (List.takeWhile_prefix _).length_le
  change (Int32.ofNat _).toInt.toNat = _
  rw [Int32.toInt_ofNat_of_lt (by omega), Int.toNat_natCast]

/-- All ranks have the values of rank 0, but the iteration to restart from. -/
theorem parseArgs_values (rank : ℕ) :
    (parseArgs line rank).values =
      { given line with
        restartIter := if rank = 0 then (given line).restartIter else -1
        optPrefix := storedPrefix line } := by
  have root := getopt_values line
  rw [values, Values.mk.injEq] at root
  obtain ⟨rows, cols, iterations, restartIter, stored⟩ := root
  rw [values, Values.mk.injEq]
  refine ⟨rows, cols, iterations, ?_, ?_⟩
  · change (if rank = 0 then getopt line else defaults).optRestartIter = _
    split
    case isTrue root => exact restartIter
    case isFalse other => rfl
  · change cString
      ((getopt line).optPrefix.copy _ (((getopt line).myargs)[4]).toInt.toNat).chars = _
    rw [toNat_length, cString_copy, stored]

end Options

/-- Every rank has the value of the last option of each kind, or the default. -/
def Agreed (parseArgs : List (Letter × Text) → ℕ → Options) (nprocs : ℕ)
    (line : List (Letter × Text)) : Prop :=
  ∀ rank < nprocs, (parseArgs line rank).values = given line

/-- `-r` with a value other than -1 is for one process only, and where the last option that
stores a prefix is a `-r`, its argument begins like the prefix. -/
structure Harmless (nprocs : ℕ) (line : List (Letter × Text)) : Prop where
  restartIter : nprocs = 1 ∨ (given line).restartIter = -1
  optPrefix : ∀ optarg, lastOf Letter.storesPrefix line = some (.r, optarg) →
    optarg.chars.take 63 = (given line).optPrefix

/-- `MLIFE_parse_args` of `mlife.c`. -/
def mlife (line : List (Letter × Text)) (rank : ℕ) : Options := .parseArgs line rank

/-- `MLIFE_parse_args` of `mlifeomp.c`. -/
def mlifeomp (line : List (Letter × Text)) (rank : ℕ) : Options := .parseArgs line rank

/-- A last option that stores a prefix and is no `-r` is the last `-p`. -/
theorem storedPrefix_of_own {line : List (Letter × Text)}
    (own : ∀ optarg, lastOf Letter.storesPrefix line ≠ some (.r, optarg)) :
    storedPrefix line = (given line).optPrefix := by
  have among : ∀ letter, decide (letter = Letter.p) = true → letter.storesPrefix := by
    intro letter own
    rw [of_decide_eq_true own]
    rfl
  have last : lastOf (fun letter => decide (letter = .p)) line =
      lastOf Letter.storesPrefix line := by
    refine lastOf_fewer among ?_
    rintro ⟨letter, optarg⟩ last
    have stores := lastOf_letter last
    cases letter with
    | p => rfl
    | r => exact absurd last (own optarg)
    | _ => exact absurd stores Bool.false_ne_true
  have lastPrefix : lastArgument .p line = (lastOf Letter.storesPrefix line).map Prod.snd :=
    congrArg (Option.map Prod.snd) last
  change _ = ((lastArgument .p line).map _).getD _
  rw [lastPrefix, Option.map_map]
  rfl

/-- The stored prefix is the given one, or the last option that stores one is a `-r`. -/
theorem storedPrefix_eq_iff (line : List (Letter × Text)) :
    storedPrefix line = (given line).optPrefix ↔
      ∀ optarg, lastOf Letter.storesPrefix line = some (.r, optarg) →
        optarg.chars.take 63 = (given line).optPrefix := by
  constructor
  · intro same optarg last
    rw [← same, storedPrefix, last]
    rfl
  · intro begins
    by_cases own : ∀ optarg, lastOf Letter.storesPrefix line ≠ some (.r, optarg)
    · exact storedPrefix_of_own own
    · simp only [ne_eq, not_forall, not_not] at own
      obtain ⟨optarg, last⟩ := own
      rw [← begins optarg last, storedPrefix, last]
      rfl

theorem agreed_iff {nprocs : ℕ} (positive : 0 < nprocs) (line : List (Letter × Text)) :
    Agreed .parseArgs nprocs line ↔ Harmless nprocs line := by
  constructor
  · intro agreed
    refine ⟨?_, (storedPrefix_eq_iff line).mp ?_⟩
    · by_contra several
      rw [not_or] at several
      have other := agreed 1 (by omega)
      rw [Options.parseArgs_values] at other
      exact several.2 (congrArg Values.restartIter other).symm
    · have root := agreed 0 positive
      rw [Options.parseArgs_values] at root
      exact congrArg Values.optPrefix root
  · intro harmless rank inside
    rw [Options.parseArgs_values, (storedPrefix_eq_iff line).mpr harmless.optPrefix]
    cases harmless.restartIter with
    | inl alone =>
      obtain rfl : rank = 0 := by omega
      rfl
    | inr initial =>
      rw [initial, ite_self, ← initial]

/-! ### Two dimensions -/

/-- The letters of `getopt(argc, argv, "a:b:x:y:i:p:r:")`. -/
inductive Letter2d where
  | a
  | b
  | x
  | y
  | i
  | r
  | p
deriving DecidableEq

/-- The variables that the options of `mlife2d.c` set. -/
structure Options2d extends Options where
  optProws : Int32
  optPcols : Int32

/-- The values that the rest of `mlife2d.c` uses. -/
structure Values2d extends Values where
  prows : Int32
  pcols : Int32
deriving DecidableEq

namespace Options2d

/-- The initial values. -/
def defaults : Options2d where
  toOptions := Options.defaults
  optProws := 0
  optPcols := 0

/-- The `switch` over an option. -/
def set (options : Options2d) : Letter2d × Text → Options2d
  | (.a, optarg) => { options with optPcols := atoi optarg.chars }
  | (.b, optarg) => { options with optProws := atoi optarg.chars }
  | (.x, optarg) => { options with optCols := atoi optarg.chars }
  | (.y, optarg) => { options with optRows := atoi optarg.chars }
  | (.i, optarg) => { options with optIter := atoi optarg.chars }
  -- falls through to the case of `-p`
  | (.r, optarg) =>
      { options with
        optRestartIter := atoi optarg.chars
        optPrefix := options.optPrefix.strncpy optarg }
  | (.p, optarg) => { options with optPrefix := options.optPrefix.strncpy optarg }

/-- The loop over the options. -/
def getopt (line : List (Letter2d × Text)) : Options2d := line.foldl set defaults

/-- `myargs` as rank 0 fills it. -/
def myargs (options : Options2d) : Vector Int32 7 :=
  #v[options.optRows, options.optCols, options.optIter, options.optRestartIter,
    Int32.ofNat ((cString options.optPrefix.chars).length + 1), options.optProws,
    options.optPcols]

/-- The variables after both broadcasts. -/
def bcast (options : Options2d) (myargs : Vector Int32 7) (root : Buffer 63) : Options2d :=
  { options with
    optRows := myargs[0]
    optCols := myargs[1]
    optIter := myargs[2]
    optProws := myargs[5]
    optPcols := myargs[6]
    optPrefix := root.copy options.optPrefix myargs[4].toInt.toNat }

/-- `MLIFE_parse_args` of `mlife2d.c` on a rank. -/
def parseArgs (line : List (Letter2d × Text)) (rank : ℕ) : Options2d :=
  let root := getopt line
  let options := if rank = 0 then root else defaults
  options.bcast root.myargs root.optPrefix

def values (options : Options2d) : Values2d where
  toValues := options.toOptions.values
  prows := options.optProws
  pcols := options.optPcols

end Options2d

/-- The letters of both programs. -/
def Letter2d.shared : Letter2d → Option Letter
  | .a | .b => none
  | .x => some .x
  | .y => some .y
  | .i => some .i
  | .r => some .r
  | .p => some .p

/-- A letter of both programs. -/
def Letter.to2d : Letter → Letter2d
  | .x => .x
  | .y => .y
  | .i => .i
  | .r => .r
  | .p => .p

theorem Letter2d.shared_iff (candidate : Letter2d) (letter : Letter) :
    candidate.shared = some letter ↔ candidate = letter.to2d := by
  cases letter <;> cases candidate <;> decide

/-- The value of the last option with each letter, or the default. -/
def given2d (line : List (Letter2d × Text)) : Values2d where
  rows := ((lastArgument .y line).map fun optarg => atoi optarg.chars).getD 25
  cols := ((lastArgument .x line).map fun optarg => atoi optarg.chars).getD 70
  iterations := ((lastArgument .i line).map fun optarg => atoi optarg.chars).getD 10
  restartIter := ((lastArgument .r line).map fun optarg => atoi optarg.chars).getD (-1)
  optPrefix := ((lastArgument .p line).map fun optarg => optarg.chars.take 63).getD "mlife".toList
  prows := ((lastArgument .b line).map fun optarg => atoi optarg.chars).getD 0
  pcols := ((lastArgument .a line).map fun optarg => atoi optarg.chars).getD 0

namespace Options2d

variable (line : List (Letter2d × Text))

/-- The loop over the options of `mlife2d.c` treats those of `mlife.c` alike. -/
theorem getopt_toOptions :
    (getopt line).toOptions = .getopt (sharedOptions Letter2d.shared line) := by
  induction line using List.reverseRecOn with
  | nil => rfl
  | append_singleton line option ih =>
      rw [getopt, List.foldl_append, ← getopt, Options.getopt, sharedOptions, List.filterMap_append,
        List.foldl_append, ← sharedOptions, ← Options.getopt, ← ih]
      obtain ⟨letter, optarg⟩ := option
      cases letter <;> rfl

/-- The ranks have the variables of `mlife.c` as `mlife.c` leaves them. -/
theorem parseArgs_toOptions (rank : ℕ) :
    (parseArgs line rank).toOptions =
      .parseArgs (sharedOptions Letter2d.shared line) rank := by
  rw [Options.parseArgs, ← getopt_toOptions]
  by_cases root : rank = 0
  · simp only [parseArgs, if_pos root]
    rfl
  · simp only [parseArgs, if_neg root]
    rfl

theorem getopt_optProws : (getopt line).optProws = (given2d line).prows := by
  refine foldl_lastArgument set optProws .b (fun optarg => atoi optarg.chars) (fun _ _ => rfl) ?_
    defaults line
  rintro options ⟨letter, optarg⟩ other
  cases letter with
  | b => exact absurd rfl other
  | _ => rfl

theorem getopt_optPcols : (getopt line).optPcols = (given2d line).pcols := by
  refine foldl_lastArgument set optPcols .a (fun optarg => atoi optarg.chars) (fun _ _ => rfl) ?_
    defaults line
  rintro options ⟨letter, optarg⟩ other
  cases letter with
  | a => exact absurd rfl other
  | _ => rfl

theorem parseArgs_values (rank : ℕ) :
    (parseArgs line rank).values =
      { toValues := (Options.parseArgs (sharedOptions Letter2d.shared line) rank).values
        prows := (given2d line).prows
        pcols := (given2d line).pcols } := by
  rw [values, parseArgs_toOptions, ← getopt_optProws, ← getopt_optPcols]
  rfl

end Options2d

theorem given2d_toValues (line : List (Letter2d × Text)) :
    (given2d line).toValues = given (sharedOptions Letter2d.shared line) := by
  have last (letter : Letter) : lastArgument letter (sharedOptions Letter2d.shared line) =
      lastArgument letter.to2d line :=
    lastArgument_sharedOptions (Letter2d.shared_iff · letter) line
  rw [given, last, last, last, last, last]
  rfl

/-- Every rank has the value of the last option of each kind, or the default. -/
def Agreed2d (parseArgs : List (Letter2d × Text) → ℕ → Options2d) (nprocs : ℕ)
    (line : List (Letter2d × Text)) : Prop :=
  ∀ rank < nprocs, (parseArgs line rank).values = given2d line

/-- `MLIFE_parse_args` of `mlife2d.c`. -/
def mlife2d (line : List (Letter2d × Text)) (rank : ℕ) : Options2d := .parseArgs line rank

theorem agreed2d_iff_agreed (nprocs : ℕ) (line : List (Letter2d × Text)) :
    Agreed2d mlife2d nprocs line ↔
      Agreed .parseArgs nprocs (sharedOptions Letter2d.shared line) := by
  refine forall₂_congr fun rank inside => ?_
  rw [mlife2d, Options2d.parseArgs_values, ← given2d_toValues]
  constructor
  · intro same
    exact congrArg Values2d.toValues same
  · intro same
    rw [same]

/-- All ranks have the values that are given exactly if no `-r` does harm: the iteration to
restart from reaches rank 0 only, and `-r` stores its argument as the prefix too. -/
theorem agreed_iff_harmless (nprocs : ℕ) (positive : 0 < nprocs) :
    (∀ line, Agreed mlife nprocs line ↔ Harmless nprocs line) ∧
    (∀ line, Agreed mlifeomp nprocs line ↔ Harmless nprocs line) ∧
    (∀ line, Agreed2d mlife2d nprocs line ↔
      Harmless nprocs (sharedOptions Letter2d.shared line)) :=
  ⟨agreed_iff positive, agreed_iff positive, fun line =>
    (agreed2d_iff_agreed nprocs line).trans (agreed_iff positive _)⟩

/-- `-x 20 -p run` on four processes. -/
theorem agreed_width_and_prefix :
    Agreed mlife 4 [(.x, ⟨"20".toList, by decide⟩), (.p, ⟨"run".toList, by decide⟩)] :=
  ((agreed_iff_harmless 4 (by decide)).1 _).mpr ⟨Or.inr rfl, nofun⟩

/-- `-r 4` -/
def restartLine : List (Letter × Text) := [(.r, ⟨"4".toList, by decide⟩)]

/-- `-r 4` of `mlife2d.c`. -/
def restartLine2d : List (Letter2d × Text) := [(.r, ⟨"4".toList, by decide⟩)]

/-- With `-r 4` rank 0 restarts from iteration 4 and the others do not restart; all of them
have the prefix "4". -/
theorem restart_not_agreed :
    (mlife restartLine 0).values = ⟨25, 70, 10, 4, "4".toList⟩ ∧
      (mlife restartLine 1).values = ⟨25, 70, 10, -1, "4".toList⟩ ∧
      (given restartLine).optPrefix = "mlife".toList ∧
      ¬ Agreed mlife 2 restartLine ∧ ¬ Agreed mlifeomp 2 restartLine ∧
      ¬ Agreed2d mlife2d 2 restartLine2d := by
  have harmful : ¬ Agreed .parseArgs 2 restartLine := by
    intro agreed
    exact absurd (agreed 1 (by decide)) (by decide)
  exact ⟨by decide, by decide, by decide, harmful, harmful,
    fun agreed => harmful ((agreed2d_iff_agreed 2 restartLine2d).mp agreed)⟩

end HandsOn.Life.ParseArgs
