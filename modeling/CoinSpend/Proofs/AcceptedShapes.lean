import CoinSpend.Proofs.Layouts
import Mathlib.Data.Set.Function
import Mathlib.Order.Interval.Set.Defs

/-!
# The shapes that have a layout

Which shapes have a layout is said by their numbers alone, and so is the reason why another shape
has none. The checks of a layout are all that is needed later on: every count that is made from it
is computed within the words, and the cells are numbered one to one, so that no two wires in use
share a cell.
-/

namespace CoinSpend

namespace Layout

/-! ## Counting -/

/-- The counts of a layout are computed within the words: every product and every sum on the way is
    a count, nothing is taken away that is not there, and what comes out are the numbers that the
    layout has. -/
structure Counted (layout : Layout) : Prop where
  capacity : Count.mul layout.columns layout.rows = .ok layout.capacity
  usedCount : layout.countUsed = .ok layout.usedCount
  constraintCount : layout.countConstraints = .ok layout.constraintCount
  checkedCount : layout.countChecked = .ok layout.checkedCount
  linearOffset : layout.findLinearOffset = .ok layout.linearOffset
  powerCount : layout.countPowers = .ok layout.powerCount
  offset : ∀ cell : Cell, cell.Inside layout.rows layout.columns →
    ∃ i, Grid.offset layout.rows layout.columns cell = some i ∧
      (do Count.add (← Count.mul cell.row layout.columns) cell.col) = .ok i.val
  step : ∀ k, k + 1 < layout.serialSize →
    Count.add layout.serialSize k = .ok (layout.serialSize + k)

theorem counted (layout : Layout) : layout.Counted where
  capacity := by
    have cells := layout.cells_lt_limit
    rw [Nat.mul_comm] at cells
    exact Count.mul_eq_ok cells
  usedCount := layout.countUsed_eq_ok
  constraintCount := layout.countConstraints_eq_ok
  checkedCount := layout.countChecked_eq_ok
  linearOffset := layout.findLinearOffset_eq_ok
  powerCount := layout.countPowers_eq_ok
  offset := fun _ inside => Grid.exists_offset_eq layout.cells_lt_limit inside
  step := by
    intro k below
    have powers := layout.powers_lt_limit
    exact Count.add_eq_ok (by omega)

/-! ## Addressing -/

/-- The cells of a layout are numbered one to one. The bits and the steps lie in cells of their own
    inside the grid, and the last step in the last of them. -/
structure Addressed (layout : Layout) : Prop where
  columns_pos : 0 < layout.columns
  cells : Set.BijOn layout.cell (Set.Iio (layout.columns * layout.rows))
    {cell | cell.Inside layout.rows layout.columns}
  offset_cell : ∀ i < layout.columns * layout.rows,
    (Grid.offset layout.rows layout.columns (layout.cell i)).map Fin.val = some i
  used : ∃ bits steps,
    (List.range layout.serialSize).mapM layout.bitCell = .ok bits ∧
    (List.range (layout.serialSize - 1)).mapM layout.stepCell = .ok steps ∧
    (bits ++ steps).Nodup ∧ ∀ cell ∈ bits ++ steps, cell.Inside layout.rows layout.columns
  lastStep : layout.stepCell layout.lastStep = .ok layout.lastCell
  lastCell : layout.lastCell = layout.cell (2 * layout.serialSize - 2)

theorem cell_injective (layout : Layout) : Function.Injective layout.cell :=
  Function.LeftInverse.injective layout.position_cell

theorem bijOn_cell (layout : Layout) :
    Set.BijOn layout.cell (Set.Iio (layout.columns * layout.rows))
      {cell | cell.Inside layout.rows layout.columns} := by
  rw [Nat.mul_comm]
  refine ⟨?_, layout.cell_injective.injOn, ?_⟩
  · intro i below
    exact layout.inside_cell below
  · intro cell inside
    exact ⟨cell.position layout.columns, Cell.position_lt inside, cell_position inside⟩

/-- The cells of the bits and those of the steps are the first cells in their order. -/
theorem bits_append_steps (layout : Layout) :
    (List.range layout.serialSize).map layout.cell
        ++ (List.range (layout.serialSize - 1)).map (fun k => layout.cell (layout.serialSize + k))
      = (List.range layout.usedCount).map layout.cell := by
  have long := layout.three_le_serialSize
  have used : layout.usedCount = layout.serialSize + (layout.serialSize - 1) := by
    unfold usedCount
    omega
  rw [used, List.range_add, List.map_append, List.map_map]
  rfl

theorem nodup_cells (layout : Layout) (n : ℕ) : ((List.range n).map layout.cell).Nodup := by
  refine List.Pairwise.map _ ?_ List.nodup_range
  exact fun i j different => layout.cell_injective.ne different

theorem addressed (layout : Layout) : layout.Addressed := by
  constructor
  case columns_pos => exact layout.columns_pos
  case cells => exact layout.bijOn_cell
  case offset_cell =>
    intro i below
    rw [Nat.mul_comm] at below
    rw [Grid.offset_of_inside (layout.inside_cell below), Option.map_some]
    exact congrArg some (layout.position_cell i)
  case used =>
    have bits : (List.range layout.serialSize).mapM layout.bitCell
        = .ok ((List.range layout.serialSize).map layout.cell) := by
      apply mapM_eq_ok
      intro k member
      exact layout.bitCell_eq_ok (List.mem_range.mp member)
    have steps : (List.range (layout.serialSize - 1)).mapM layout.stepCell
        = .ok ((List.range (layout.serialSize - 1)).map
            fun k => layout.cell (layout.serialSize + k)) := by
      apply mapM_eq_ok
      intro k member
      exact layout.stepCell_eq_ok (Nat.add_lt_of_lt_sub (List.mem_range.mp member))
    refine ⟨_, _, bits, steps, ?_⟩
    rw [layout.bits_append_steps]
    refine ⟨layout.nodup_cells _, ?_⟩
    intro cell member
    obtain ⟨i, below, rfl⟩ := List.mem_map.mp member
    exact layout.inside_of_used (List.mem_range.mp below)
  case lastStep => exact layout.stepCell_lastStep
  case lastCell => exact layout.lastCell_eq

/-- A shape is refused for the first reason that its numbers give. If they give none it has a
    layout, whose counts are computed within the words and whose cells are numbered one to one. -/
theorem ofShape_exact (shape : Shape) :
    (∀ error, ofShape shape = .refuse error ↔ shape.refusal? = some error) ∧
    (shape.refusal? = none →
      ∃ layout, ofShape shape = .ok layout ∧ layout.Describes shape ∧ layout.Counted ∧
        layout.Addressed) := by
  refine ⟨fun error => ofShape_eq_refuse_iff, ?_⟩
  intro unopposed
  rcases ofShape_cases shape with ⟨error, given, -⟩ | ⟨layout, -, accepted, described⟩
  · rw [unopposed] at given
    cases given
  · exact ⟨layout, accepted, described, layout.counted, layout.addressed⟩

/-- The widest row that has a layout fills the words with its powers and with its padding. One more
    column is one too many for the powers. -/
theorem ofShape_exact_widest :
    let widest : Shape := ⟨18446744073709551602, 1, 3, 13⟩
    let wider : Shape := ⟨18446744073709551603, 1, 3, 12⟩
    (∃ layout, ofShape widest = .ok layout ∧ layout.Describes widest ∧ layout.Counted ∧
      layout.Addressed) ∧
    ofShape wider = .refuse (.countOverflow wider) :=
  ⟨(ofShape_exact _).2 (by decide), ((ofShape_exact _).1 _).mpr (by decide)⟩

end Layout

end CoinSpend
