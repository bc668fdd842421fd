import Mathlib.Data.List.Basic

/-!
# Serial Life

Conway's rule on a grid whose outside is permanently dead. Rows and columns are
counted from one.
-/

namespace HandsOn.Life

/-- Which cells are alive. -/
abbrev Grid := ℕ → ℕ → Bool

/-- A position of the `rows` by `cols` grid. -/
def Inside (rows cols row col : ℕ) : Prop :=
  (1 ≤ row ∧ row ≤ rows) ∧ 1 ≤ col ∧ col ≤ cols

instance (rows cols row col : ℕ) : Decidable (Inside rows cols row col) :=
  inferInstanceAs (Decidable ((_ ∧ _) ∧ _ ∧ _))

/-- The eight positions around one inside a grid. -/
def neighbours (row col : ℕ) : List (ℕ × ℕ) :=
  [(row - 1, col - 1), (row - 1, col), (row - 1, col + 1), (row, col - 1), (row, col + 1),
    (row + 1, col - 1), (row + 1, col), (row + 1, col + 1)]

/-- How many neighbours of a position are alive. -/
def liveNeighbours (grid : Grid) (row col : ℕ) : ℕ :=
  (neighbours row col).countP fun position => grid position.1 position.2

/-- A live cell with two or three live neighbours stays alive, a dead cell with
three is born, and no other cell lives. -/
def conway (alive : Bool) (live : ℕ) : Bool :=
  match alive with
  | true => live == 2 || live == 3
  | false => live == 3

/-- The grid with everything outside `rows` by `cols` dead. -/
def Grid.restrict (rows cols : ℕ) (grid : Grid) : Grid :=
  fun row col => decide (Inside rows cols row col) && grid row col

/-- One generation. -/
def Grid.next (rows cols : ℕ) (grid : Grid) : Grid :=
  Grid.restrict rows cols fun row col => conway (grid row col) (liveNeighbours grid row col)

/-- The grid after a number of generations. -/
def Grid.generation (rows cols : ℕ) (grid : Grid) : ℕ → Grid
  | 0 => grid.restrict rows cols
  | k + 1 => (grid.generation rows cols k).next rows cols

theorem Grid.restrict_outside {rows cols row col : ℕ} (outside : ¬ Inside rows cols row col)
    (grid : Grid) : grid.restrict rows cols row col = false := by
  simp [restrict, outside]

theorem Grid.restrict_inside {rows cols row col : ℕ} (inside : Inside rows cols row col)
    (grid : Grid) : grid.restrict rows cols row col = grid row col := by
  simp [restrict, inside]

/-- Outside the grid every generation is dead. -/
theorem Grid.generation_outside {rows cols row col : ℕ}
    (outside : ¬ Inside rows cols row col) (grid : Grid) (k : ℕ) :
    grid.generation rows cols k row col = false := by
  cases k with
  | zero => exact restrict_outside outside grid
  | succ k => rw [generation, next, restrict_outside outside]

/-- Neighbours in a part of a grid are neighbours in the grid. -/
theorem liveNeighbours_shift (grid : Grid) (down right : ℕ) {row col : ℕ} (firstRow : 1 ≤ row)
    (firstCol : 1 ≤ col) :
    liveNeighbours (fun i j => grid (down + i) (right + j)) row col =
      liveNeighbours grid (down + row) (right + col) := by
  simp only [liveNeighbours, neighbours, List.countP_cons, List.countP_nil,
    Nat.add_sub_assoc firstRow, Nat.add_sub_assoc firstCol, Nat.add_assoc]

end HandsOn.Life
