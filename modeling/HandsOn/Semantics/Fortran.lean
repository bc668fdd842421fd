import HandsOn.Semantics.Loop
import Mathlib.Data.Fin.Tuple.Basic
import Mathlib.Tactic.Linarith

/-!
# Fortran loops and arrays

A `do` loop fixes its number of iterations before the first one. A subscript outside of the
declared bounds of an array is an error; where a program succeeds, no subscript has been.
-/

namespace HandsOn.Semantics.Fortran

universe u v w

/-! ### Programs that can fail -/

section Gives

variable {Error : Type u} {Value : Type v} {Next : Type w}

/-- A program does not fail, and what it returns has a property. -/
def Gives (program : Except Error Value) (Q : Value → Prop) : Prop :=
  ∃ value, program = .ok value ∧ Q value

theorem gives_ok {Q : Value → Prop} {value : Value} (holds : Q value) :
    Gives (.ok value : Except Error Value) Q :=
  ⟨value, rfl, holds⟩

theorem Gives.imp {program : Except Error Value} {P Q : Value → Prop} (gives : Gives program P)
    (implies : ∀ value, P value → Q value) : Gives program Q := by
  obtain ⟨value, returned, holds⟩ := gives
  exact ⟨value, returned, implies value holds⟩

/-- Rule of sequencing. -/
theorem Gives.bind {program : Except Error Value} {P : Value → Prop} (gives : Gives program P)
    {next : Value → Except Error Next} {Q : Next → Prop}
    (later : ∀ value, P value → Gives (next value) Q) : Gives (program.bind next) Q := by
  obtain ⟨value, rfl, holds⟩ := gives
  exact later value holds

/-- A program that returns something has the property of what it gives. -/
theorem Gives.of_ok {program : Except Error Value} {Q : Value → Prop} (gives : Gives program Q)
    {value : Value} (returned : program = .ok value) : Q value := by
  obtain ⟨other, same, holds⟩ := gives
  cases returned.symm.trans same
  exact holds

/-- What both parts of a sequence that does not fail return. -/
theorem bind_eq_ok {program : Except Error Value} {next : Value → Except Error Next}
    {result : Next} : program.bind next = .ok result ↔
      ∃ value, program = .ok value ∧ next value = .ok result := by
  cases program with
  | error error =>
      constructor
      · nofun
      · rintro ⟨_, ⟨⟩, _⟩
  | ok value =>
      constructor
      · exact fun finished => ⟨value, rfl, finished⟩
      · rintro ⟨_, ⟨⟩, finished⟩
        exact finished

/-- The processes' programs, one for each; none of them may fail. -/
def together : {nprocs : ℕ} → (Fin nprocs → Except Error Value) →
    Except Error (Fin nprocs → Value)
  | 0, _ => .ok nofun
  | _ + 1, programs =>
      (programs 0).bind fun first =>
        (together fun rank => programs rank.succ).bind fun rest => .ok (Fin.cons first rest)

theorem together_eq_ok {nprocs : ℕ} {programs : Fin nprocs → Except Error Value}
    {values : Fin nprocs → Value} :
    together programs = .ok values ↔ ∀ rank, programs rank = .ok (values rank) := by
  induction nprocs with
  | zero =>
      refine iff_of_true ?_ nofun
      exact congrArg Except.ok (funext nofun)
  | succ nprocs ih =>
      simp only [together, bind_eq_ok, ih, Fin.forall_fin_succ]
      constructor
      · rintro ⟨first, here, rest, later, same⟩
        cases same
        exact ⟨here, later⟩
      · rintro ⟨here, later⟩
        exact ⟨values 0, here, fun rank => values rank.succ, later,
          congrArg Except.ok (Fin.cons_self_tail values)⟩

theorem together_gives {nprocs : ℕ} {programs : Fin nprocs → Except Error Value}
    {Q : Fin nprocs → Value → Prop} (gives : ∀ rank, Gives (programs rank) (Q rank)) :
    Gives (together programs) fun values => ∀ rank, Q rank (values rank) := by
  choose values returned holds using gives
  exact ⟨values, together_eq_ok.mpr returned, holds⟩

end Gives

/-! ### Loops -/

section Loops

variable {Error : Type u} {State : Type v} {first last step : Int}
  {body : Int → State → Except Error State} {start : State}

/-- The number of iterations of `do i = first, last, step`. -/
def tripCount (first last step : Int) : ℕ := ((last - first + step).tdiv step).toNat

/-- `do i = first, last, step` -/
def doLoop (first last step : Int) (body : Int → State → Except Error State) (start : State) :
    Except Error State :=
  (List.range (tripCount first last step)).foldlM
    (fun state (n : ℕ) => body (first + n * step) state) start

/-- Invariant rule, by the number of iterations. -/
theorem doLoop_gives {I : ℕ → State → Prop} (holds : I 0 start)
    (next : ∀ n < tripCount first last step, ∀ state, I n state →
      Gives (body (first + n * step) state) (I (n + 1))) :
    Gives (doLoop first last step body start) (I (tripCount first last step)) := by
  rw [doLoop]
  generalize tripCount first last step = count at next ⊢
  induction count with
  | zero => exact gives_ok holds
  | succ count ih =>
      obtain ⟨state, before, reached⟩ := ih fun n inside => next n (Nat.lt_succ_of_lt inside)
      obtain ⟨after, iterated, holds⟩ := next count (Nat.lt_succ_self count) state reached
      exact ⟨after, foldlM_range_succ.mpr ⟨state, before, iterated⟩, holds⟩

/-- What a loop that does not fail keeps. -/
theorem doLoop_keeps {I : ℕ → State → Prop} (holds : I 0 start)
    (keeps : ∀ n state after, I n state → body (first + n * step) state = .ok after →
      I (n + 1) after)
    {finish : State} (finished : doLoop first last step body start = .ok finish) :
    I (tripCount first last step) finish :=
  foldlM_range_keeps holds (fun n _ state after => keeps n state after) finished

theorem tripCount_one (first : Int) (count : ℕ) :
    tripCount first (first + count - 1) 1 = count := by
  rw [tripCount, Int.tdiv_one]
  omega

/-- Invariant rule for loops over consecutive numbers. -/
theorem doLoop_one_gives {I : ℕ → State → Prop} {count : ℕ} (ends : last + 1 = first + count)
    (holds : I 0 start)
    (next : ∀ n < count, ∀ state, I n state → Gives (body (first + n) state) (I (n + 1))) :
    Gives (doLoop first last 1 body start) (I count) := by
  obtain rfl : last = first + count - 1 := by omega
  have gives : Gives (doLoop first (first + count - 1) 1 body start)
      (I (tripCount first (first + count - 1) 1)) := by
    refine doLoop_gives holds fun n inside state reached => ?_
    rw [Int.mul_one]
    rw [tripCount_one] at inside
    exact next n inside state reached
  rwa [tripCount_one] at gives

/-- A loop that does not fail has run the body for every number. -/
theorem doLoop_one_runs {count : ℕ} (ends : last + 1 = first + count) {finish : State}
    (finished : doLoop first last 1 body start = .ok finish) {n : ℕ} (inside : n < count) :
    ∃ state after, body (first + n) state = .ok after := by
  obtain rfl : last = first + count - 1 := by omega
  have all := doLoop_keeps (I := fun done _ => ∀ n < done, ∃ state after,
    body (first + n) state = .ok after) (fun n none => absurd none (Nat.not_lt_zero n)) ?_ finished
  · rw [tripCount_one] at all
    exact all n inside
  · intro done state after earlier iterated n below
    rw [Int.mul_one] at iterated
    rcases Nat.lt_succ_iff_lt_or_eq.mp below with less | rfl
    · exact earlier n less
    · exact ⟨state, after, iterated⟩

end Loops

/-! ### Arrays -/

inductive Fault where
  | subscript

/-- The declared bounds of an array of two dimensions: the lower bound of both, and the
extents. -/
structure Bounds where
  lower : Int
  rows : ℕ
  cols : ℕ

/-- The elements of an array, counted from its lower bounds. -/
abbrev Elements (Value : Type u) := ℕ → ℕ → Value

/-- An array with one element replaced. -/
def Elements.replace {Value : Type u} (array : Elements Value) (row col : ℕ) (value : Value) :
    Elements Value :=
  fun i j => if i = row ∧ j = col then value else array i j

namespace Bounds

variable {Value : Type u} (bounds : Bounds)

def Within (i j : Int) : Prop :=
  (bounds.lower ≤ i ∧ i < bounds.lower + bounds.rows) ∧
    bounds.lower ≤ j ∧ j < bounds.lower + bounds.cols

instance (i j : Int) : Decidable (bounds.Within i j) :=
  inferInstanceAs (Decidable ((_ ∧ _) ∧ _ ∧ _))

/-- `array(i,j)` -/
def element (array : Elements Value) (i j : Int) : Except Fault Value :=
  if bounds.Within i j then .ok (array (i - bounds.lower).toNat (j - bounds.lower).toNat)
  else .error .subscript

/-- `array(i,j) = value` -/
def assign (i j : Int) (value : Value) (array : Elements Value) :
    Except Fault (Elements Value) :=
  if bounds.Within i j then
    .ok (array.replace (i - bounds.lower).toNat (j - bounds.lower).toNat value)
  else .error .subscript

/-- Two nested loops over the rows and columns of a part of an array, which assign a value to
each of its elements. -/
def fill (firstRow lastRow firstCol lastCol : Int) (value : Int → Int → Except Fault Value)
    (array : Elements Value) : Except Fault (Elements Value) :=
  doLoop firstRow lastRow 1 (fun i => doLoop firstCol lastCol 1 fun j array =>
    (value i j).bind fun value => bounds.assign i j value array) array

variable {bounds} {array : Elements Value} {i j : Int} {row col : ℕ}

theorem element_eq (atRow : i = bounds.lower + row) (atCol : j = bounds.lower + col)
    (inRows : row < bounds.rows) (inCols : col < bounds.cols) :
    bounds.element array i j = .ok (array row col) := by
  have within : bounds.Within i j := by
    unfold Within
    omega
  rw [element, if_pos within, atRow, atCol, add_sub_cancel_left, add_sub_cancel_left]
  rfl

theorem assign_eq (atRow : i = bounds.lower + row) (atCol : j = bounds.lower + col)
    (inRows : row < bounds.rows) (inCols : col < bounds.cols) (value : Value) :
    bounds.assign i j value array = .ok (array.replace row col value) := by
  have within : bounds.Within i j := by
    unfold Within
    omega
  rw [assign, if_pos within, atRow, atCol, add_sub_cancel_left, add_sub_cancel_left]
  rfl

/-- An assignment that does not fail has its subscripts within the bounds. -/
theorem within_of_assign {value : Value} {after : Elements Value}
    (assigned : bounds.assign i j value array = .ok after) : bounds.Within i j := by
  by_contra outside
  rw [assign, if_neg outside] at assigned
  cases assigned

section Fill

variable {firstRow lastRow firstCol lastCol : Int} {value : Int → Int → Except Fault Value}
  {left rows above cols : ℕ}

/-- The inner loop assigns one row. -/
theorem fill_row_gives (cells : ℕ → Value) (startsCol : firstCol = bounds.lower + left)
    (endsCol : lastCol + 1 = firstCol + cols) (atRow : i = bounds.lower + row)
    (inRows : row < bounds.rows) (inCols : left + cols ≤ bounds.cols)
    (values : ∀ col, left ≤ col → col < left + cols →
      value i (bounds.lower + col) = .ok (cells col)) :
    Gives (doLoop firstCol lastCol 1 (fun j array =>
        (value i j).bind fun value => bounds.assign i j value array) array) fun after =>
      ∀ row' col, after row' col =
        if row' = row ∧ left ≤ col ∧ col < left + cols then cells col else array row' col := by
  refine doLoop_one_gives (I := fun done (after : Elements Value) => ∀ row' col, after row' col =
    if row' = row ∧ left ≤ col ∧ col < left + done then cells col else array row' col) endsCol ?_ ?_
  · intro row' col
    exact (if_neg (by omega)).symm
  · intro done inside current assigned
    have atCol : firstCol + done = bounds.lower + ((left + done : ℕ) : Int) := by omega
    rw [atCol, values (left + done) (by omega) (by omega)]
    refine ⟨_, bounds.assign_eq atRow rfl inRows (by omega) _, fun row' col => ?_⟩
    rw [Elements.replace]
    by_cases here : row' = row ∧ col = left + done
    · rw [if_pos here, if_pos (by omega), here.2]
    · rw [if_neg here, assigned]
      split <;> rename_i before
      · rw [if_pos (by omega)]
      · rw [if_neg (by omega)]

/-- The loops assign each element of the part and leave the others. -/
theorem fill_gives (above rows left cols : ℕ) (cells : ℕ → ℕ → Value)
    (startsRow : firstRow = bounds.lower + above)
    (endsRow : lastRow + 1 = firstRow + rows) (startsCol : firstCol = bounds.lower + left)
    (endsCol : lastCol + 1 = firstCol + cols) (inRows : above + rows ≤ bounds.rows)
    (inCols : left + cols ≤ bounds.cols)
    (values : ∀ row col, above ≤ row → row < above + rows → left ≤ col → col < left + cols →
      value (bounds.lower + row) (bounds.lower + col) = .ok (cells row col)) :
    Gives (bounds.fill firstRow lastRow firstCol lastCol value array) fun after =>
      ∀ row col, after row col =
        if (above ≤ row ∧ row < above + rows) ∧ left ≤ col ∧ col < left + cols then cells row col
        else array row col := by
  refine doLoop_one_gives (I := fun done (after : Elements Value) => ∀ row col, after row col =
    if (above ≤ row ∧ row < above + done) ∧ left ≤ col ∧ col < left + cols then cells row col
    else array row col) endsRow ?_ ?_
  · intro row col
    exact (if_neg (by omega)).symm
  · intro done inside current assigned
    have atRow : firstRow + done = bounds.lower + ((above + done : ℕ) : Int) := by omega
    refine (fill_row_gives (cells (above + done)) startsCol endsCol atRow (by omega) inCols
      fun col first last => ?_).imp fun after filled row col => ?_
    · rw [atRow]
      exact values _ col (by omega) (by omega) first last
    · rw [filled, assigned]
      by_cases here : row = above + done ∧ left ≤ col ∧ col < left + cols
      · rw [if_pos here, if_pos (by omega), here.1]
      · rw [if_neg here]
        split <;> rename_i before
        · rw [if_pos (by omega)]
        · rw [if_neg (by omega)]

/-- Loops that do not fail stay within the bounds. -/
theorem within_of_fill (endsRow : lastRow + 1 = firstRow + rows)
    (endsCol : lastCol + 1 = firstCol + cols) {after : Elements Value}
    (filled : bounds.fill firstRow lastRow firstCol lastCol value array = .ok after)
    (inRows : row < rows) (inCols : col < cols) :
    bounds.Within (firstRow + row) (firstCol + col) := by
  obtain ⟨_, _, ranRow⟩ := doLoop_one_runs endsRow filled inRows
  obtain ⟨_, _, ran⟩ := doLoop_one_runs endsCol ranRow inCols
  obtain ⟨_, _, assigned⟩ := bind_eq_ok.mp ran
  exact within_of_assign assigned

end Fill

end Bounds

end HandsOn.Semantics.Fortran
