import CoinSpend.Grid
import CoinSpend.Proofs.Attempts
import Mathlib.Logic.Function.Basic

/-!
# Grids by position

The cells of a grid are numbered row after row. A grid is given by the function from positions to
values, and every access to it is an access to that function: reading evaluates it, writing
updates it at one position.
-/

namespace CoinSpend

namespace Cell

/-- Whether a grid of this size has the cell. -/
def Inside (rows columns : ℕ) (cell : Cell) : Prop :=
  cell.row < rows ∧ cell.col < columns

instance (rows columns : ℕ) (cell : Cell) : Decidable (cell.Inside rows columns) :=
  inferInstanceAs (Decidable (_ ∧ _))

/-- Whether a cell comes before another one, row by row. -/
def Precedes (cell other : Cell) : Prop :=
  cell.row < other.row ∨ cell.row = other.row ∧ cell.col < other.col

/-- The number of a cell in the order of the rows. -/
def position (columns : ℕ) (cell : Cell) : ℕ :=
  cell.row * columns + cell.col

/-- The cell with a number in the order of the rows. -/
def ofPosition (columns i : ℕ) : Cell :=
  ⟨i / columns, i % columns⟩

variable {rows columns : ℕ}

theorem columns_pos_of_lt {i : ℕ} (h : i < rows * columns) : 0 < columns := by
  rcases Nat.eq_zero_or_pos columns with rfl | positive
  · simp at h
  · exact positive

theorem inside_ofPosition {i : ℕ} (h : i < rows * columns) :
    (ofPosition columns i).Inside rows columns :=
  ⟨Nat.div_lt_of_lt_mul (Nat.mul_comm rows columns ▸ h), Nat.mod_lt i (columns_pos_of_lt h)⟩

theorem position_ofPosition (columns i : ℕ) : (ofPosition columns i).position columns = i :=
  Nat.div_add_mod' i columns

theorem row_of_position {row col : ℕ} (h : col < columns) :
    (row * columns + col) / columns = row := by
  rw [Nat.mul_comm, Nat.mul_add_div (Nat.zero_lt_of_lt h), Nat.div_eq_of_lt h, Nat.add_zero]

theorem col_of_position {row col : ℕ} (h : col < columns) :
    (row * columns + col) % columns = col := by
  rw [Nat.mul_add_mod', Nat.mod_eq_of_lt h]

theorem ofPosition_position {cell : Cell} (h : cell.col < columns) :
    ofPosition columns (cell.position columns) = cell := by
  cases cell
  simp only [ofPosition, position, mk.injEq]
  exact ⟨row_of_position h, col_of_position h⟩

theorem position_inj {cell other : Cell} (h : cell.col < columns) (h' : other.col < columns) :
    cell.position columns = other.position columns ↔ cell = other := by
  constructor
  · intro same
    rw [← ofPosition_position h, same, ofPosition_position h']
  · rintro rfl
    rfl

theorem precedes_iff_position {cell other : Cell} (h : cell.col < columns)
    (h' : other.col < columns) :
    cell.Precedes other ↔ cell.position columns < other.position columns := by
  unfold Precedes position
  rcases Nat.lt_trichotomy cell.row other.row with before | same | after
  · have above : (cell.row + 1) * columns ≤ other.row * columns := Nat.mul_le_mul_right _ before
    rw [Nat.succ_mul] at above
    omega
  · rw [same]
    omega
  · have above : (other.row + 1) * columns ≤ cell.row * columns := Nat.mul_le_mul_right _ after
    rw [Nat.succ_mul] at above
    omega

theorem position_lt {cell : Cell} (h : cell.Inside rows columns) :
    cell.position columns < rows * columns :=
  offset_lt h.1 h.2

end Cell

namespace Grid

open Cell

variable {rows columns : ℕ} {α β : Type}

/-- The grid with the value `F i` in the cell number `i`. -/
def tabulate (rows columns : ℕ) (F : ℕ → α) : Grid rows columns α :=
  ⟨Vector.ofFn fun i => F i⟩

theorem offset_of_inside {cell : Cell} (h : cell.Inside rows columns) :
    offset rows columns cell = some ⟨cell.position columns, position_lt h⟩ :=
  dif_pos h

theorem offset_outside {cell : Cell} (h : ¬cell.Inside rows columns) :
    offset rows columns cell = none :=
  dif_neg h

/-- The place of a cell is computed within the words. -/
theorem exists_offset_eq (fits : rows * columns < Count.limit) {cell : Cell}
    (h : cell.Inside rows columns) :
    ∃ i, offset rows columns cell = some i ∧
      (do Count.add (← Count.mul cell.row columns) cell.col) = .ok i.val := by
  have small := Nat.lt_trans (position_lt h) fits
  unfold position at small
  refine ⟨_, offset_of_inside h, ?_⟩
  rw [Count.mul_eq_ok (by omega), ok_bind, Count.add_eq_ok small]
  rfl

theorem get?_tabulate (F : ℕ → α) {cell : Cell} (h : cell.Inside rows columns) :
    (tabulate rows columns F).get? cell = some (F (cell.position columns)) := by
  simp [get?, offset_of_inside h, tabulate]

theorem exists_get?_eq_some (grid : Grid rows columns α) {cell : Cell}
    (h : cell.Inside rows columns) : ∃ value, grid.get? cell = some value := by
  rw [get?, offset_of_inside h]
  exact ⟨_, rfl⟩

theorem get?_outside (grid : Grid rows columns α) {cell : Cell} (h : ¬cell.Inside rows columns) :
    grid.get? cell = none := by
  rw [get?, offset_outside h, Option.map_none]

theorem replace?_outside (grid : Grid rows columns α) {cell : Cell}
    (h : ¬cell.Inside rows columns) (value : α) : grid.replace? cell value = none := by
  rw [replace?, offset_outside h, Option.map_none]

theorem modify?_outside (grid : Grid rows columns α) {cell : Cell}
    (h : ¬cell.Inside rows columns) (f : α → α) : grid.modify? cell f = none := by
  rw [modify?, get?_outside grid h]
  rfl

theorem inside_of_get? {grid : Grid rows columns α} {cell : Cell} {value : α}
    (present : grid.get? cell = some value) : cell.Inside rows columns := by
  by_contra outside
  rw [get?_outside grid outside] at present
  cases present

/-- A grid is known by what is read from it. -/
theorem eq_tabulate_iff {grid : Grid rows columns α} {F : ℕ → α} :
    grid = tabulate rows columns F ↔
      ∀ cell : Cell, cell.Inside rows columns →
        grid.get? cell = some (F (cell.position columns)) := by
  constructor
  · rintro rfl cell inside
    exact get?_tabulate F inside
  · intro reads
    obtain ⟨values⟩ := grid
    simp only [tabulate, mk.injEq]
    ext i below
    have here := reads (ofPosition columns i) (inside_ofPosition below)
    simp only [get?, offset_of_inside (inside_ofPosition below), position_ofPosition,
      Option.map_some, Option.some.injEq] at here
    simpa using here

/-- Every grid is given by a function from positions. -/
theorem exists_eq_tabulate (grid : Grid rows columns α) (unused : α) :
    ∃ F : ℕ → α, grid = tabulate rows columns F := by
  refine ⟨fun i => (grid.get? (ofPosition columns i)).getD unused, ?_⟩
  refine eq_tabulate_iff.mpr ?_
  intro cell inside
  obtain ⟨value, present⟩ := grid.exists_get?_eq_some inside
  rw [ofPosition_position inside.2, present, Option.getD_some]

theorem tabulate_congr {F G : ℕ → α} (h : ∀ i < rows * columns, F i = G i) :
    tabulate rows columns F = tabulate rows columns G := by
  rw [eq_tabulate_iff]
  intro cell inside
  rw [get?_tabulate F inside, h _ (position_lt inside)]

theorem read_tabulate (F : ℕ → α) {cell : Cell} (h : cell.Inside rows columns) :
    (tabulate rows columns F).read cell = .ok (F (cell.position columns)) := by
  rw [read, get?_tabulate F h]

theorem filled_eq_ok {value : α} (h : rows * columns < Count.limit) :
    filled rows columns value = .ok (tabulate rows columns fun _ => value) := by
  rw [filled, Count.mul_eq_ok h, ok_bind, pure_eq_ok]
  congr 1
  simp only [tabulate, mk.injEq]
  ext i below
  simp

theorem replace?_tabulate (F : ℕ → α) {cell : Cell} (h : cell.Inside rows columns) (value : α) :
    (tabulate rows columns F).replace? cell value
      = some (tabulate rows columns (Function.update F (cell.position columns) value)) := by
  rw [replace?, offset_of_inside h, Option.map_some]
  simp only [tabulate, Option.some.injEq, mk.injEq]
  ext i below
  by_cases here : cell.position columns = i
  · subst here
    simp
  · rw [Vector.getElem_set_ne _ _ here]
    simp [Function.update_of_ne (Ne.symm here)]

theorem put_tabulate (F : ℕ → α) {cell : Cell} (h : cell.Inside rows columns) (value : α) :
    (tabulate rows columns F).put cell value
      = .ok (tabulate rows columns (Function.update F (cell.position columns) value)) := by
  rw [put, replace?_tabulate F h]

theorem update_tabulate (F : ℕ → α) {cell : Cell} (h : cell.Inside rows columns)
    {change : α → Checked α} {value : α} (answer : change (F (cell.position columns)) = .ok value) :
    (tabulate rows columns F).update cell change
      = .ok (tabulate rows columns (Function.update F (cell.position columns) value)) := by
  rw [update, read_tabulate F h, ok_bind, answer, ok_bind, put_tabulate F h]

theorem modify?_tabulate (F : ℕ → α) {cell : Cell} (h : cell.Inside rows columns) (f : α → α) :
    (tabulate rows columns F).modify? cell f
      = some (f (F (cell.position columns)), tabulate rows columns
          (Function.update F (cell.position columns) (f (F (cell.position columns))))) := by
  rw [modify?, get?_tabulate F h]
  simp [replace?_tabulate F h]

theorem cells_tabulate (F : ℕ → α) :
    (tabulate rows columns F).cells
      = (List.range (rows * columns)).map fun i => (ofPosition columns i, F i) := by
  apply List.ext_getElem
  · simp [cells]
  · intro i _ _
    simp [cells, tabulate, ofPosition]

theorem rowValues_tabulate (F : ℕ → α) {m : ℕ} (h : m < rows) :
    (tabulate rows columns F).rowValues m
      = (List.range columns).map fun col => F (m * columns + col) := by
  have fits : (m + 1) * columns ≤ rows * columns := Nat.mul_le_mul_right columns h
  apply List.ext_getElem
  · simp [rowValues]
    rw [Nat.succ_mul] at fits ⊢
    omega
  · intro i _ _
    simp [rowValues, tabulate]

theorem row_tabulate (F : ℕ → α) {m : ℕ} (h : m < rows) :
    (tabulate rows columns F).row m
      = .ok ((List.range columns).map fun col => F (m * columns + col)) := by
  rw [row, if_pos h, rowValues_tabulate F h]

/-- Values written one after the other from the cell number `first + index` on. -/
theorem putAll_tabulate {cellOf : ℕ → Checked Cell} {first index : ℕ} {values : List α} {F : ℕ → α}
    (cells : ∀ k, index ≤ k → k < index + values.length →
      cellOf k = .ok (ofPosition columns (first + k)))
    (room : first + index + values.length ≤ rows * columns) :
    putAll cellOf index values (tabulate rows columns F)
      = .ok (tabulate rows columns fun i =>
          if first + index ≤ i then values[i - (first + index)]?.getD (F i) else F i) := by
  induction values generalizing index F with
  | nil => simp [putAll]
  | cons value later ih =>
    simp only [List.length_cons] at cells room
    have inside : (ofPosition columns (first + index)).Inside rows columns :=
      inside_ofPosition (by omega)
    rw [putAll, cells index (Nat.le_refl _) (by omega), ok_bind, put_tabulate F inside, ok_bind,
      ih (fun k low high => cells k (by omega) (by omega)) (by omega), position_ofPosition]
    congr 2
    funext i
    rcases Nat.lt_trichotomy i (first + index) with before | rfl | after
    · have ne : i ≠ first + index := by omega
      simp [Nat.not_le.mpr before, show ¬first + (index + 1) ≤ i by omega,
        Function.update_of_ne ne]
    · simp [show ¬first + (index + 1) ≤ first + index by omega]
    · have ne : i ≠ first + index := by omega
      have later : i - (first + index) = i - (first + (index + 1)) + 1 := by omega
      simp [show first + (index + 1) ≤ i by omega, show first + index ≤ i by omega, later,
        Function.update_of_ne ne]

/-- The values `g 0` to `g (count - 1)`, written from the cell number `first` on. -/
theorem putAll_range {cellOf : ℕ → Checked Cell} {first count : ℕ} (g F : ℕ → α)
    (cells : ∀ k < count, cellOf k = .ok (ofPosition columns (first + k)))
    (room : first + count ≤ rows * columns) :
    putAll cellOf 0 ((List.range count).map g) (tabulate rows columns F)
      = .ok (tabulate rows columns fun i =>
          if first ≤ i ∧ i < first + count then g (i - first) else F i) := by
  have length : ((List.range count).map g).length = count := by simp
  have written (k : ℕ) (_ : 0 ≤ k) (below : k < 0 + ((List.range count).map g).length) :
      cellOf k = .ok (ofPosition columns (first + k)) :=
    cells k (by omega)
  rw [putAll_tabulate written (by omega)]
  congr 2
  funext i
  by_cases written : first ≤ i ∧ i < first + count
  · have below : i - first < count := by omega
    rw [Nat.add_zero, if_pos written.1, if_pos written]
    simp [below]
  · rw [if_neg written, Nat.add_zero]
    split
    case isTrue after =>
      have beyond : count ≤ i - first := by omega
      simp [beyond]
    case isFalse => rfl

end Grid

end CoinSpend
