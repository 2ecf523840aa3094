import CoinSpend.Grid
import CoinSpend.Parameters

/-!
# The layout of a circuit

Every wire has an index; wire `i` lies in row `i / columns` and column `i % columns`. The first
`serialSize` wires hold the bits of the randomness, the following `serialSize - 1` the steps of
the accumulation, and the others are not used.

A layout is built only if the wires in use fit into the grid and every count that is derived from
the shape later on fits in a word: cells, constraints, powers of the challenge and their inverses.

`usedCount`, `lastCell` and the like are what is counted and found, as numbers and cells. The
functions that count and find it, `countUsed`, `findLastCell` and so on, do so step by step in words
and fault where a step leaves them; beside each of them stands that it does not fault.
-/

namespace CoinSpend

/-- The fewest bits that a circuit is made for: the accumulation needs a first step, a link and a
    last step. -/
def minimumSerialSize : Nat := 3

/-- Why a shape does not hold a circuit. -/
inductive LayoutError where
  | tooFewBits (serialSize : Nat)
  | countOverflow (shape : Shape)
  | tooFewCells (needed capacity rows columns : Nat)
  deriving DecidableEq

namespace LayoutError

/-- What is said about a shape that does not hold a circuit. -/
def message : LayoutError → String
  | tooFewBits serialSize =>
      "serial size " ++ toString serialSize ++ " is below the minimum of "
        ++ toString minimumSerialSize
  | countOverflow shape =>
      "circuit dimensions overflow (columns " ++ toString shape.columns.toNat ++ ", rows "
        ++ toString shape.rows.toNat ++ ", serial size " ++ toString shape.serialSize.toNat
        ++ ", pads " ++ toString shape.pads.toNat ++ ")"
  | tooFewCells needed capacity rows columns =>
      "circuit needs " ++ toString needed ++ " wires but a " ++ toString rows ++ "x"
        ++ toString columns ++ " matrix holds " ++ toString capacity

end LayoutError

/-- A bound on the number of powers of the challenge, if it is a count and the padded columns can
    be counted as well. -/
def Shape.powerBound? (shape : Shape) : Option Nat := do
  let _ ← Count.add? shape.columns.toNat shape.pads.toNat
  let constraints ← Count.mul? shape.serialSize.toNat 4
  let gates ← Count.mul? shape.rows.toNat (← Count.add? shape.columns.toNat 1)
  Count.add? gates constraints

theorem Shape.powerBound?_lt {shape : Shape} {bound : Nat} (h : shape.powerBound? = some bound) :
    shape.rows.toNat * (shape.columns.toNat + 1) + shape.serialSize.toNat * 4 < Count.limit := by
  simp only [powerBound?, bind, Option.bind_eq_some_iff, Count.add?_eq_some_iff,
    Count.mul?_eq_some_iff] at h
  obtain ⟨_, -, _, ⟨-, rfl⟩, _, ⟨-, rfl⟩, _, ⟨-, rfl⟩, h, -⟩ := h
  exact h

/-- Counts the wires that take part in a circuit of `serialSize` bits: one for each bit, and one for
    each step from the second bit on. -/
def countWires (serialSize : Nat) : Checked Nat := do
  Count.sub (← Count.mul 2 serialSize) 1

theorem countWires_eq_ok {serialSize : Nat} (positive : 0 < serialSize)
    (small : 2 * serialSize < Count.limit) : countWires serialSize = .ok (2 * serialSize - 1) := by
  simp only [countWires, Count.mul_eq_ok small, bind, Except.bind]
  exact Count.sub_eq_ok (by omega)

theorem eq_of_countWires {serialSize needed : Nat} (counted : countWires serialSize = .ok needed) :
    needed = 2 * serialSize - 1 := by
  unfold countWires at counted
  cases doubled : Count.mul 2 serialSize with
  | error breach =>
    rw [doubled] at counted
    cases counted
  | ok product =>
    rw [doubled] at counted
    rw [(Count.mul_eq_ok_iff.mp doubled).2, (Count.sub_eq_ok_iff.mp counted).2]

/-- A grid that holds the wires of a circuit. -/
structure Layout where
  columns : Nat
  rows : Nat
  serialSize : Nat
  minimum_le_serialSize : minimumSerialSize ≤ serialSize
  wires_le_cells : 2 * serialSize - 1 ≤ columns * rows
  powers_lt_limit : rows * (columns + 1) + serialSize * 4 < Count.limit
  deriving DecidableEq

namespace Layout

/-- The layout for a shape: checks the serial size, then the counts, then the room for the
    wires. -/
def ofShape (shape : Shape) : Attempt LayoutError Layout :=
  if small : shape.serialSize.toNat < minimumSerialSize then
    .refuse (.tooFewBits shape.serialSize.toNat)
  else
    match hcells : shape.capacity?, hpowers : shape.powerBound? with
    | some capacity, some _ =>
        match hwires : countWires shape.serialSize.toNat with
        | .error breach => .error (.fault breach)
        | .ok needed =>
            if crowded : capacity < needed then
              .refuse (.tooFewCells needed capacity shape.rows.toNat shape.columns.toNat)
            else
              .ok {
                columns := shape.columns.toNat
                rows := shape.rows.toNat
                serialSize := shape.serialSize.toNat
                minimum_le_serialSize := Nat.le_of_not_lt small
                wires_le_cells := by
                  have := (Count.mul?_eq_some_iff.mp hcells).2
                  have := eq_of_countWires hwires
                  omega
                powers_lt_limit := Shape.powerBound?_lt hpowers }
    | _, _ => .refuse (.countOverflow shape)

section

variable (layout : Layout)

theorem three_le_serialSize : 3 ≤ layout.serialSize :=
  layout.minimum_le_serialSize

theorem serialSize_lt_limit : layout.serialSize < Count.limit := by
  have powers := layout.powers_lt_limit
  omega

theorem columns_pos : 0 < layout.columns := by
  have long := layout.three_le_serialSize
  have room := layout.wires_le_cells
  apply Nat.pos_of_ne_zero
  intro none
  rw [none, Nat.zero_mul] at room
  omega

theorem rows_pos : 0 < layout.rows := by
  have long := layout.three_le_serialSize
  have room := layout.wires_le_cells
  apply Nat.pos_of_ne_zero
  intro none
  rw [none, Nat.mul_zero] at room
  omega

/-! ## Cells -/

/-- The cell of the wire with the given index. -/
def cell (index : Nat) : Cell :=
  ⟨index / layout.columns, index % layout.columns⟩

/-- Finds the cell of the wire with the given index. -/
def findCell (index : Nat) : Checked Cell := do
  let (row, col) ← Count.locate layout.columns index
  return ⟨row, col⟩

/-- The cell of bit `k` of the randomness. -/
def bitCell (k : Nat) : Checked Cell :=
  if k < layout.serialSize then layout.findCell k else .error .missingBit

/-- The cell of step `k` of the accumulation. -/
def stepCell (k : Nat) : Checked Cell := do
  let next ← Count.add k 1
  if next < layout.serialSize then layout.findCell (← Count.add layout.serialSize k)
  else throw .missingStep

/-- The number of the last step of the accumulation. -/
def lastStep : Nat :=
  layout.serialSize - 2

/-- Finds the number of the last step. -/
def findLastStep : Checked Nat :=
  Count.sub layout.serialSize 2

/-- The cell of the last step, whose product is the commitment. -/
def lastCell : Cell :=
  layout.cell (layout.serialSize + layout.lastStep)

/-- Finds the cell of the last step. -/
def findLastCell : Checked Cell := do
  layout.stepCell (← layout.findLastStep)

theorem findCell_eq_ok (index : Nat) : layout.findCell index = .ok (layout.cell index) := by
  simp only [findCell, Count.locate_eq_ok layout.columns_pos, bind, Except.bind]
  rfl

theorem bitCell_eq_ok {k : Nat} (h : k < layout.serialSize) :
    layout.bitCell k = .ok (layout.cell k) := by
  rw [bitCell, if_pos h, findCell_eq_ok]

theorem stepCell_eq_ok {k : Nat} (h : k + 1 < layout.serialSize) :
    layout.stepCell k = .ok (layout.cell (layout.serialSize + k)) := by
  have powers := layout.powers_lt_limit
  have next : Count.add k 1 = .ok (k + 1) := Count.add_eq_ok (by omega)
  have index : Count.add layout.serialSize k = .ok (layout.serialSize + k) :=
    Count.add_eq_ok (by omega)
  simp only [stepCell, next, index, bind, Except.bind, if_pos h, findCell_eq_ok]

theorem findLastStep_eq_ok : layout.findLastStep = .ok layout.lastStep := by
  have long := layout.three_le_serialSize
  exact Count.sub_eq_ok (by omega)

theorem stepCell_lastStep : layout.stepCell layout.lastStep = .ok layout.lastCell := by
  have long := layout.three_le_serialSize
  apply stepCell_eq_ok
  unfold lastStep
  omega

theorem findLastCell_eq_ok : layout.findLastCell = .ok layout.lastCell := by
  simp only [findLastCell, findLastStep_eq_ok, bind, Except.bind, stepCell_lastStep]

/-! ## Counts -/

/-- The number of cells. -/
def capacity : Nat :=
  layout.columns * layout.rows

/-- The number of wires in use. -/
def usedCount : Nat :=
  2 * layout.serialSize - 1

/-- Counts the wires in use. -/
def countUsed : Checked Nat :=
  countWires layout.serialSize

/-- The number of linear constraints. -/
def constraintCount : Nat :=
  4 * layout.serialSize - 1

/-- Counts the linear constraints. -/
def countConstraints : Checked Nat := do
  Count.sub (← Count.mul 4 layout.serialSize) 1

/-- The number of linear constraints without the one that selects the final wire. -/
def checkedCount : Nat :=
  4 * layout.serialSize - 2

/-- Counts the linear constraints without the one that selects the final wire. -/
def countChecked : Checked Nat := do
  Count.sub (← Count.mul 4 layout.serialSize) 2

/-- The power of the challenge that the first linear constraint is weighted with. The powers
    below it belong to the gates. -/
def linearOffset : Nat :=
  layout.rows * (layout.columns + 1) + 1

/-- Finds the power of the challenge that the first linear constraint is weighted with. -/
def findLinearOffset : Checked Nat := do
  Count.add (← Count.mul layout.rows (← Count.add layout.columns 1)) 1

/-- The number of powers of the challenge: one for each checked constraint after those of the
    gates. -/
def powerCount : Nat :=
  layout.linearOffset + layout.checkedCount

/-- Counts the powers of the challenge. -/
def countPowers : Checked Nat := do
  Count.add (← layout.findLinearOffset) (← layout.countChecked)

theorem countUsed_eq_ok : layout.countUsed = .ok layout.usedCount := by
  have long := layout.three_le_serialSize
  have powers := layout.powers_lt_limit
  exact countWires_eq_ok (by omega) (by omega)

theorem mul_four_serialSize :
    Count.mul 4 layout.serialSize = .ok (4 * layout.serialSize) := by
  have powers := layout.powers_lt_limit
  exact Count.mul_eq_ok (by omega)

theorem countConstraints_eq_ok : layout.countConstraints = .ok layout.constraintCount := by
  have long := layout.three_le_serialSize
  simp only [countConstraints, mul_four_serialSize, bind, Except.bind]
  exact Count.sub_eq_ok (by omega)

theorem countChecked_eq_ok : layout.countChecked = .ok layout.checkedCount := by
  have long := layout.three_le_serialSize
  simp only [countChecked, mul_four_serialSize, bind, Except.bind]
  exact Count.sub_eq_ok (by omega)

theorem powerCount_lt_limit : layout.powerCount < Count.limit := by
  have long := layout.three_le_serialSize
  have powers := layout.powers_lt_limit
  unfold powerCount linearOffset checkedCount
  omega

theorem findLinearOffset_eq_ok : layout.findLinearOffset = .ok layout.linearOffset := by
  have powers := layout.powerCount_lt_limit
  have wide : layout.columns + 1 ≤ layout.rows * (layout.columns + 1) :=
    Nat.le_mul_of_pos_left _ layout.rows_pos
  unfold powerCount linearOffset at powers
  have columns : Count.add layout.columns 1 = .ok (layout.columns + 1) :=
    Count.add_eq_ok (by omega)
  have gates : Count.mul layout.rows (layout.columns + 1)
      = .ok (layout.rows * (layout.columns + 1)) := Count.mul_eq_ok (by omega)
  simp only [findLinearOffset, columns, gates, bind, Except.bind]
  exact Count.add_eq_ok (by omega)

theorem countPowers_eq_ok : layout.countPowers = .ok layout.powerCount := by
  simp only [countPowers, findLinearOffset_eq_ok, countChecked_eq_ok, bind, Except.bind]
  exact Count.add_eq_ok layout.powerCount_lt_limit

end

/-- A grid over this layout with one value in every cell. -/
def filled {α : Type} (layout : Layout) (value : α) :
    Checked (Grid layout.rows layout.columns α) :=
  Grid.filled layout.rows layout.columns value

end Layout

end CoinSpend
