import CoinSpend.Count

/-!
# Grids

A grid holds one value for each cell of a rectangle, row after row. Cells are addressed by row and
column; every access checks both, so a column past the end never reaches into the next row.
-/

namespace CoinSpend

/-- A position in a grid. -/
structure Cell where
  row : Nat
  col : Nat
  deriving DecidableEq

/-- The values of the cells of a rectangle. -/
structure Grid (rows columns : Nat) (α : Type) where
  values : Vector α (rows * columns)
  deriving DecidableEq

/-- A write was refused because there is no such cell. -/
structure OutOfBounds where
  cell : Cell
  rows : Nat
  columns : Nat
  deriving DecidableEq

/-- What is said about a refused write. -/
def OutOfBounds.message (e : OutOfBounds) : String :=
  "cell (" ++ toString e.cell.row ++ ", " ++ toString e.cell.col ++ ") is outside a "
    ++ toString e.rows ++ "x" ++ toString e.columns ++ " matrix"

theorem Cell.offset_lt {cell : Cell} {rows columns : Nat} (hrow : cell.row < rows)
    (hcol : cell.col < columns) : cell.row * columns + cell.col < rows * columns :=
  calc cell.row * columns + cell.col
    _ < cell.row * columns + columns := Nat.add_lt_add_left hcol _
    _ = (cell.row + 1) * columns := (Nat.succ_mul _ _).symm
    _ ≤ rows * columns := Nat.mul_le_mul_right _ hrow

namespace Grid

variable {rows columns : Nat} {α β : Type}

/-- The grid with one value in every cell; the cells have to be countable. -/
def filled (rows columns : Nat) (value : α) : Checked (Grid rows columns α) := do
  let _ ← Count.mul rows columns
  return ⟨Vector.replicate (rows * columns) value⟩

/-- Where the value of a cell is kept. -/
def offset (rows columns : Nat) (cell : Cell) : Option (Fin (rows * columns)) :=
  if inside : cell.row < rows ∧ cell.col < columns then
    some ⟨cell.row * columns + cell.col, Cell.offset_lt inside.1 inside.2⟩
  else none

/-- The fault of reading or writing a cell that is not there. -/
def outside (rows columns : Nat) (cell : Cell) : Fault :=
  .outsideGrid cell.row cell.col rows columns

/-- The value of a cell, if there is one. -/
def get? (grid : Grid rows columns α) (cell : Cell) : Option α :=
  (offset rows columns cell).map fun i => grid.values[i]

/-- The value of a cell that has to be there. -/
def read (grid : Grid rows columns α) (cell : Cell) : Checked α :=
  match grid.get? cell with
  | some value => .ok value
  | none => .error (outside rows columns cell)

/-- The grid with the value of one cell replaced, if there is such a cell. -/
def replace? (grid : Grid rows columns α) (cell : Cell) (value : α) :
    Option (Grid rows columns α) :=
  (offset rows columns cell).map fun i : Fin (rows * columns) => ⟨grid.values.set i value⟩

/-- Writes a cell, or refuses to. -/
def set (grid : Grid rows columns α) (cell : Cell) (value : α) :
    Except OutOfBounds (Grid rows columns α) :=
  match grid.replace? cell value with
  | some grid => .ok grid
  | none => .error ⟨cell, rows, columns⟩

/-- Writes a cell that has to be there. -/
def put (grid : Grid rows columns α) (cell : Cell) (value : α) : Checked (Grid rows columns α) :=
  match grid.replace? cell value with
  | some grid => .ok grid
  | none => .error (outside rows columns cell)

/-- Changes the value of a cell, if there is one; answers with the new value as well. -/
def modify? (grid : Grid rows columns α) (cell : Cell) (f : α → α) :
    Option (α × Grid rows columns α) := do
  let value := f (← grid.get? cell)
  return (value, ← grid.replace? cell value)

/-- Changes the value of a cell that has to be there. -/
def update (grid : Grid rows columns α) (cell : Cell) (f : α → Checked α) :
    Checked (Grid rows columns α) := do
  grid.put cell (← f (← grid.read cell))

/-- Writes the values at the cells of `index`, `index + 1` and so on. -/
def putAll (cellOf : Nat → Checked Cell) :
    Nat → List α → Grid rows columns α → Checked (Grid rows columns α)
  | _, [], grid => .ok grid
  | index, value :: later, grid => do
      let grid ← grid.put (← cellOf index) value
      putAll cellOf (index + 1) later grid

/-- The values of the row with the given number; there are none below the last row. -/
def rowValues (grid : Grid rows columns α) (row : Nat) : List α :=
  (grid.values.toArray.extract (row * columns) ((row + 1) * columns)).toList

/-- The values of a row that has to be there. -/
def row (grid : Grid rows columns α) (row : Nat) : Checked (List α) :=
  if row < rows then .ok (grid.rowValues row) else .error (.missingRow row)

/-- The values of all rows. -/
def toRows (grid : Grid rows columns α) : List (List α) :=
  (List.range rows).map grid.rowValues

/-- All cells with their values, row after row. -/
def cells (grid : Grid rows columns α) : List (Cell × α) :=
  grid.values.toList.zipIdx.map fun (value, i) => (⟨i / columns, i % columns⟩, value)

/-- The grid of the images of the values. -/
def map (f : α → β) (grid : Grid rows columns α) : Grid rows columns β :=
  ⟨grid.values.map f⟩

end Grid

end CoinSpend
