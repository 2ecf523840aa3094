import CoinSpend.Layout
import CoinSpend.Proofs.GridPositions

/-!
# Layouts that hold a circuit

What the checks of a layout guarantee later on: the wires in use are among the cells, and every
count that is derived from the layout is a count. Whether a shape has a layout, and for which reason
it has none, is said by its numbers.
-/

namespace CoinSpend

namespace Layout

theorem cell_eq (layout : Layout) (i : ℕ) : layout.cell i = Cell.ofPosition layout.columns i := rfl

theorem cells_lt_limit (layout : Layout) : layout.rows * layout.columns < Count.limit := by
  have powers := layout.powers_lt_limit
  rw [Nat.mul_succ] at powers
  omega

theorem rows_lt_limit (layout : Layout) : layout.rows < Count.limit :=
  Nat.lt_of_le_of_lt (Nat.le_mul_of_pos_right _ layout.columns_pos) layout.cells_lt_limit

/-- The wires in use are wires of the grid. -/
theorem usedCount_le (layout : Layout) : layout.usedCount ≤ layout.rows * layout.columns := by
  rw [Nat.mul_comm]
  exact layout.wires_le_cells

theorem inside_cell (layout : Layout) {i : ℕ} (h : i < layout.rows * layout.columns) :
    (layout.cell i).Inside layout.rows layout.columns :=
  Cell.inside_ofPosition h

theorem inside_of_used (layout : Layout) {i : ℕ} (h : i < 2 * layout.serialSize - 1) :
    (layout.cell i).Inside layout.rows layout.columns :=
  layout.inside_cell (Nat.lt_of_lt_of_le h layout.usedCount_le)

theorem position_cell (layout : Layout) (i : ℕ) :
    (layout.cell i).position layout.columns = i :=
  Cell.position_ofPosition layout.columns i

theorem cell_position {layout : Layout} {cell : Cell}
    (inside : cell.Inside layout.rows layout.columns) :
    layout.cell (cell.position layout.columns) = cell :=
  Cell.ofPosition_position inside.2

theorem lastCell_eq (layout : Layout) :
    layout.lastCell = layout.cell (2 * layout.serialSize - 2) := by
  have := layout.three_le_serialSize
  rw [lastCell, lastStep]
  congr 1
  omega

theorem succ_eq_lastStep_iff (layout : Layout) {k : ℕ} :
    k + 1 = layout.lastStep ↔ k + 3 = layout.serialSize := by
  have := layout.three_le_serialSize
  unfold lastStep
  omega

/-- The number of the last checked constraint. -/
def lastLink (layout : Layout) : ℕ :=
  4 * layout.serialSize - 3

theorem lastLink_succ (layout : Layout) : layout.lastLink + 1 = layout.checkedCount := by
  have long := layout.three_le_serialSize
  unfold lastLink checkedCount
  omega

theorem lastLink_lt (layout : Layout) : layout.lastLink < layout.checkedCount := by
  rw [← layout.lastLink_succ]
  exact Nat.lt_succ_self _

theorem constraintCount_eq (layout : Layout) :
    layout.constraintCount = layout.checkedCount + 1 := by
  have long := layout.three_le_serialSize
  unfold constraintCount checkedCount
  omega

theorem lt_constraintCount {layout : Layout} {i : ℕ} (h : i < layout.checkedCount) :
    i < layout.constraintCount := by
  rw [layout.constraintCount_eq]
  exact Nat.lt_succ_of_lt h

/-- The checked constraints in their order: a property of all numbers below `checkedCount` is one of
    every family. -/
theorem forall_checked {layout : Layout} {motive : ℕ → Prop}
    (complement : ∀ k < layout.serialSize, motive k)
    (product : ∀ k < layout.serialSize, motive (layout.serialSize + k))
    (recurrence : ∀ k, k + 1 < layout.serialSize → motive (2 * layout.serialSize + k))
    (anchor : motive (3 * layout.serialSize - 1))
    (chain : ∀ k, k + 2 < layout.serialSize → motive (3 * layout.serialSize + k)) :
    ∀ i < layout.checkedCount, motive i := by
  intro i below
  unfold checkedCount at below
  by_cases ofComplement : i < layout.serialSize
  · exact complement i ofComplement
  by_cases ofProduct : i < 2 * layout.serialSize
  · obtain ⟨k, rfl⟩ := Nat.exists_eq_add_of_le (Nat.le_of_not_lt ofComplement)
    exact product k (by omega)
  by_cases ofRecurrence : i < 3 * layout.serialSize - 1
  · obtain ⟨k, rfl⟩ := Nat.exists_eq_add_of_le (Nat.le_of_not_lt ofProduct)
    exact recurrence k (by omega)
  by_cases ofAnchor : i < 3 * layout.serialSize
  · obtain rfl : i = 3 * layout.serialSize - 1 := by omega
    exact anchor
  · obtain ⟨k, rfl⟩ := Nat.exists_eq_add_of_le (Nat.le_of_not_lt ofAnchor)
    exact chain k (by omega)

/-- The power of every checked constraint is among those of the table. -/
theorem linearOffset_add_lt (layout : Layout) {i : ℕ} (h : i < layout.checkedCount) :
    layout.linearOffset + i < layout.powerCount :=
  Nat.add_lt_add_left h _

/-- The powers of the gates are among those of the table. -/
theorem cells_lt_powerCount (layout : Layout) :
    layout.rows * layout.columns + layout.rows < layout.powerCount := by
  rw [powerCount, linearOffset, Nat.mul_succ]
  omega

/-- What is known of a shape for which there is a layout. -/
structure Describes (layout : Layout) (shape : Shape) : Prop where
  columns : layout.columns = shape.columns.toNat
  rows : layout.rows = shape.rows.toNat
  serialSize : layout.serialSize = shape.serialSize.toNat
  padded_lt_limit : layout.columns + shape.pads.toNat < Count.limit

theorem Describes.lastCell {layout : Layout} {shape : Shape} (described : layout.Describes shape) :
    layout.lastCell = .ofPosition shape.columns.toNat (2 * shape.serialSize.toNat - 2) := by
  rw [layout.lastCell_eq, layout.cell_eq, described.columns, described.serialSize]

end Layout

/-! ## The shapes that have a layout -/

namespace Shape

/-- Whether one of the counts that are checked does not fit in a word: that of the cells, that of
    the columns with the padding or with one more, or the bound on that of the powers. -/
def Overflows (shape : Shape) : Prop :=
  let columns := shape.columns.toNat
  let rows := shape.rows.toNat
  2 ^ 64 - 1 < columns * rows ∨ 2 ^ 64 - 1 < columns + shape.pads.toNat ∨
    2 ^ 64 - 1 < columns + 1 ∨ 2 ^ 64 - 1 < rows * (columns + 1) + 4 * shape.serialSize.toNat

instance (shape : Shape) : Decidable shape.Overflows :=
  inferInstanceAs (Decidable (_ ∨ _ ∨ _ ∨ _))

/-- Why there is no layout for a shape, if there is none. -/
def refusal? (shape : Shape) : Option LayoutError :=
  let columns := shape.columns.toNat
  let rows := shape.rows.toNat
  let serialSize := shape.serialSize.toNat
  if serialSize < 3 then some (.tooFewBits serialSize)
  else if shape.Overflows then some (.countOverflow shape)
  else if columns * rows < 2 * serialSize - 1 then
    some (.tooFewCells (2 * serialSize - 1) (columns * rows) rows columns)
  else none

variable {shape : Shape}

theorem capacity?_eq_some_iff {capacity : ℕ} :
    shape.capacity? = some capacity
      ↔ shape.columns.toNat * shape.rows.toNat < Count.limit ∧
        shape.columns.toNat * shape.rows.toNat = capacity :=
  Count.mul?_eq_some_iff

/-- The bound on the powers is a count exactly if the columns with the padding, the columns and one
    more, and the bound are. -/
theorem exists_powerBound?_iff :
    (∃ bound, shape.powerBound? = some bound)
      ↔ shape.columns.toNat + shape.pads.toNat < Count.limit ∧
        shape.columns.toNat + 1 < Count.limit ∧
        shape.rows.toNat * (shape.columns.toNat + 1) + 4 * shape.serialSize.toNat
          < Count.limit := by
  simp only [powerBound?, bind, Option.bind_eq_some_iff, Count.add?_eq_some_iff,
    Count.mul?_eq_some_iff]
  constructor
  · rintro ⟨_, _, ⟨padded, rfl⟩, _, ⟨-, rfl⟩, _, ⟨wide, rfl⟩, _, ⟨-, rfl⟩, bound, -⟩
    exact ⟨padded, wide, by omega⟩
  · rintro ⟨padded, wide, bound⟩
    exact ⟨_, _, ⟨padded, rfl⟩, _, ⟨by omega, rfl⟩, _, ⟨wide, rfl⟩, _, ⟨by omega, rfl⟩,
      by omega, rfl⟩

theorem not_overflows_iff :
    ¬shape.Overflows
      ↔ (∃ capacity, shape.capacity? = some capacity) ∧
        ∃ bound, shape.powerBound? = some bound := by
  have limit : Count.limit = 2 ^ 64 - 1 + 1 := rfl
  simp only [exists_powerBound?_iff, capacity?_eq_some_iff, Overflows, exists_and_left, exists_eq',
    and_true, limit]
  omega

end Shape

namespace Layout

variable {shape : Shape}

/-- The layout for a shape is refused for the reason that its numbers give, and otherwise there is
    one. -/
theorem ofShape_cases (shape : Shape) :
    (∃ error, shape.refusal? = some error ∧ ofShape shape = .refuse error) ∨
      ∃ layout, shape.refusal? = none ∧ ofShape shape = .ok layout ∧ layout.Describes shape := by
  unfold ofShape
  split
  case isTrue few => exact Or.inl ⟨_, if_pos few, rfl⟩
  case isFalse long =>
    split
    next capacity bound counted bounded =>
      have fits : ¬shape.Overflows := Shape.not_overflows_iff.mpr ⟨⟨_, counted⟩, _, bounded⟩
      obtain ⟨padded, -, bound_lt⟩ := Shape.exists_powerBound?_iff.mp ⟨_, bounded⟩
      obtain rfl := (Shape.capacity?_eq_some_iff.mp counted).2
      have three : ¬shape.serialSize.toNat < 3 := long
      have wires : countWires shape.serialSize.toNat = .ok (2 * shape.serialSize.toNat - 1) :=
        countWires_eq_ok (by omega) (by omega)
      split
      next breach failed => cases failed.symm.trans wires
      next needed found =>
        obtain rfl := eq_of_countWires found
        split
        case isTrue crowded =>
          exact Or.inl ⟨_, (if_neg long).trans ((if_neg fits).trans (if_pos crowded)), rfl⟩
        case isFalse roomy =>
          have unopposed : shape.refusal? = none :=
            (if_neg long).trans ((if_neg fits).trans (if_neg roomy))
          exact Or.inr ⟨_, unopposed, rfl, rfl, rfl, rfl, padded⟩
    next uncounted =>
      have overflows : shape.Overflows := by
        by_contra fits
        obtain ⟨⟨capacity, counted⟩, bound, bounded⟩ := Shape.not_overflows_iff.mp fits
        exact uncounted capacity bound counted bounded
      exact Or.inl ⟨_, (if_neg long).trans (if_pos overflows), rfl⟩

theorem ofShape_eq_refuse_iff {error : LayoutError} :
    ofShape shape = .refuse error ↔ shape.refusal? = some error := by
  rcases ofShape_cases shape with ⟨reason, given, refused⟩ | ⟨layout, given, accepted, -⟩
  · rw [given, refused, Attempt.refuse_inj, Option.some.injEq]
  · rw [given, accepted]
    simp

theorem describes_of_ofShape {layout : Layout} (accepted : ofShape shape = .ok layout) :
    layout.Describes shape := by
  rcases ofShape_cases shape with ⟨error, -, refused⟩ | ⟨made, -, built, described⟩
  · cases refused.symm.trans accepted
  · obtain rfl := Except.ok.inj (built.symm.trans accepted)
    exact described

end Layout

end CoinSpend
