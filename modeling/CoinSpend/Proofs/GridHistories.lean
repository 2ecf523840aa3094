import CoinSpend.Proofs.GridPositions
import Mathlib.Data.List.Induction

/-!
# Histories of a grid

A grid starts out with one value in every cell, and only writes change it. Whatever was done to it
before, every cell holds the value that was written there last, and all ways to read the grid agree
on that. A write to a cell that is not there is turned down and changes nothing, and no address
that is computed on the way leaves the words.
-/

namespace CoinSpend

/-! ## Writes -/

/-- A write to one cell of a grid. -/
inductive Write (α : Type) where
  /-- Overwrites the value, or is refused. -/
  | set (cell : Cell) (value : α)
  /-- Changes the value in place, if there is one. -/
  | modify (cell : Cell) (f : α → α)
  /-- Overwrites the value, which has to be there. -/
  | put (cell : Cell) (value : α)
  /-- Changes the value, which has to be there; computing the new one may fault. -/
  | update (cell : Cell) (f : α → Checked α)

/-- What a grid says to a write. -/
inductive WriteAnswer (α : Type) where
  | done
  | changed (value : α)
  | absent
  | refused (reason : OutOfBounds)
  | fault (breach : Fault)

section

variable {α : Type}

namespace Write

/-- The cell that is written to. -/
def cell : Write α → Cell
  | set cell _ | modify cell _ | put cell _ | update cell _ => cell

/-- What is written to a cell that holds `old`. -/
def newValue (old : α) : Write α → Checked α
  | set _ value | put _ value => .ok value
  | modify _ f => .ok (f old)
  | update _ f => f old

/-- What a cell that held `old` holds after a write. A change that faults leaves it as it is. -/
def leaves (old : α) (write : Write α) : α :=
  match write.newValue old with
  | .ok value => value
  | .error _ => old

/-- What is said to a write to a cell that holds `old`. -/
def answer (old : α) : Write α → WriteAnswer α
  | set .. | put .. => .done
  | modify _ f => .changed (f old)
  | update _ f =>
      match f old with
      | .ok _ => .done
      | .error breach => .fault breach

/-- What is said to a write to a cell that is not there. -/
def rejection (rows columns : ℕ) : Write α → WriteAnswer α
  | set cell _ => .refused ⟨cell, rows, columns⟩
  | modify .. => .absent
  | put cell _ | update cell _ => .fault (.outsideGrid cell.row cell.col rows columns)

end Write

/-- The values that a history wrote to a cell, one after the other. A change that faults writes
    none. -/
def writtenTo (fill : α) (history : List (Write α)) (cell : Cell) : List α :=
  history.foldl (fun values write =>
    if write.cell = cell then
      match write.newValue (values.getLastD fill) with
      | .ok value => values ++ [value]
      | .error _ => values
    else values) []

/-- The value that a history wrote to a cell last, or the fill value. -/
def lastWritten (fill : α) (history : List (Write α)) (cell : Cell) : α :=
  (writtenTo fill history cell).getLastD fill

/-- A write changes what was written last to its own cell, and to no other. -/
theorem lastWritten_concat (fill : α) (history : List (Write α)) (write : Write α) :
    lastWritten fill (history ++ [write])
      = Function.update (lastWritten fill history) write.cell
          (write.leaves (lastWritten fill history write.cell)) := by
  funext cell
  unfold lastWritten writtenTo
  rw [List.foldl_append, List.foldl_cons, List.foldl_nil]
  by_cases here : write.cell = cell
  · subst here
    rw [if_pos rfl, Function.update_self, Write.leaves]
    cases write.newValue _ with
    | ok value => exact List.getLastD_concat ..
    | error breach => rfl
  · rw [if_neg here, Function.update_of_ne (Ne.symm here)]

end

namespace Grid

variable {rows columns : ℕ} {α : Type}

/-- What is said to a write that either answers with the new grid or faults, and the grid after
    it. -/
def settle (grid : Grid rows columns α) :
    Checked (Grid rows columns α) → WriteAnswer α × Grid rows columns α
  | .ok written => (.done, written)
  | .error breach => (.fault breach, grid)

/-- What is said to a write, and the grid after it. -/
def write (grid : Grid rows columns α) : Write α → WriteAnswer α × Grid rows columns α
  | .set cell value =>
      match grid.set cell value with
      | .ok written => (.done, written)
      | .error reason => (.refused reason, grid)
  | .modify cell f =>
      match grid.modify? cell f with
      | some (value, written) => (.changed value, written)
      | none => (.absent, grid)
  | .put cell value => grid.settle (grid.put cell value)
  | .update cell f => grid.settle (grid.update cell f)

/-- What a history of writes makes of a new grid. A write that is turned down leaves the grid as it
    is, and the history goes on. -/
def after (rows columns : ℕ) (fill : α) (history : List (Write α)) :
    Checked (Grid rows columns α) := do
  let grid ← filled rows columns fill
  return history.foldl (fun grid write => (grid.write write).2) grid

/-! ## What one write does -/

/-- The grid with the value `F cell` in every cell. -/
def ofCells (rows columns : ℕ) (F : Cell → α) : Grid rows columns α :=
  tabulate rows columns fun i => F (.ofPosition columns i)

theorem tabulate_update (F : Cell → α) {cell : Cell} (h : cell.Inside rows columns) (value : α) :
    tabulate rows columns
        (Function.update (fun i => F (.ofPosition columns i)) (cell.position columns) value)
      = ofCells rows columns (Function.update F cell value) := by
  apply tabulate_congr
  intro i _
  by_cases here : i = cell.position columns
  · subst here
    rw [Function.update_self, Cell.ofPosition_position h.2, Function.update_self]
  · have other : Cell.ofPosition columns i ≠ cell := by
      rintro rfl
      exact here (Cell.position_ofPosition columns i).symm
    rw [Function.update_of_ne here, Function.update_of_ne other]

/-- What a cell that is not there would hold does not matter. -/
theorem ofCells_update_outside (F : Cell → α) {cell : Cell} (h : ¬cell.Inside rows columns)
    (value : α) : ofCells rows columns (Function.update F cell value) = ofCells rows columns F := by
  apply tabulate_congr
  intro i below
  have other : Cell.ofPosition columns i ≠ cell := by
    rintro rfl
    exact h (Cell.inside_ofPosition below)
  rw [Function.update_of_ne other]

theorem write_tabulate (F : ℕ → α) {write : Write α} (h : write.cell.Inside rows columns) :
    (tabulate rows columns F).write write
      = (write.answer (F (write.cell.position columns)),
        tabulate rows columns (Function.update F (write.cell.position columns)
          (write.leaves (F (write.cell.position columns))))) := by
  cases write with
  | set cell value =>
    have inside : cell.Inside rows columns := h
    rw [Grid.write, set, replace?_tabulate F inside]
    rfl
  | modify cell f =>
    have inside : cell.Inside rows columns := h
    rw [Grid.write, modify?_tabulate F inside]
    rfl
  | put cell value =>
    have inside : cell.Inside rows columns := h
    rw [Grid.write, put_tabulate F inside]
    rfl
  | update cell f =>
    have inside : cell.Inside rows columns := h
    rw [Grid.write, Write.leaves, Write.newValue, Write.answer, Write.cell]
    cases computed : f (F (cell.position columns)) with
    | ok value =>
      rw [update_tabulate F inside computed]
      rfl
    | error breach =>
      have failed : (tabulate rows columns F).update cell f = .error breach := by
        rw [update, read_tabulate F inside, ok_bind, computed, error_bind]
      rw [failed, Function.update_eq_self]
      rfl

theorem write_ofCells (F : Cell → α) {write : Write α} (h : write.cell.Inside rows columns) :
    (ofCells rows columns F).write write
      = (write.answer (F write.cell),
        ofCells rows columns (Function.update F write.cell (write.leaves (F write.cell)))) := by
  rw [ofCells, write_tabulate _ h, tabulate_update F h, Cell.ofPosition_position h.2]

/-- A write to a cell that is not there is turned down, and the grid stays as it is. -/
theorem write_outside (grid : Grid rows columns α) {write : Write α}
    (h : ¬write.cell.Inside rows columns) :
    grid.write write = (write.rejection rows columns, grid) := by
  cases write with
  | set cell value =>
    have absent : ¬cell.Inside rows columns := h
    rw [Grid.write, set, replace?_outside grid absent]
    rfl
  | modify cell f =>
    have absent : ¬cell.Inside rows columns := h
    rw [Grid.write, modify?_outside grid absent]
    rfl
  | put cell value =>
    have absent : ¬cell.Inside rows columns := h
    rw [Grid.write, put, replace?_outside grid absent]
    rfl
  | update cell f =>
    have absent : ¬cell.Inside rows columns := h
    rw [Grid.write, update, read, get?_outside grid absent]
    rfl

theorem write_snd_ofCells (F : Cell → α) (write : Write α) :
    ((ofCells rows columns F).write write).2
      = ofCells rows columns (Function.update F write.cell (write.leaves (F write.cell))) := by
  by_cases inside : write.cell.Inside rows columns
  · rw [write_ofCells F inside]
  · rw [write_outside _ inside, ofCells_update_outside F inside]

/-- After a history every cell holds the value that was written there last. -/
theorem after_eq_ok (fits : rows * columns < Count.limit) (fill : α) (history : List (Write α)) :
    after rows columns fill history = .ok (ofCells rows columns (lastWritten fill history)) := by
  rw [after, filled_eq_ok fits, ok_bind, pure_eq_ok]
  congr 1
  -- From the end of the history: the last write finds a grid that holds what was written before.
  induction history using List.reverseRecOn with
  | nil => rfl
  | append_singleton history write ih =>
    rw [List.foldl_append, ih, List.foldl_cons, List.foldl_nil, write_snd_ofCells,
      lastWritten_concat]

/-! ## Reading -/

/-- A grid that holds `F cell` in every cell. All ways to read it agree on that: a single cell,
    which may be missing or has to be there, a whole row, and the list of all cells, which has each
    of them once and in their order. -/
structure Holds (grid : Grid rows columns α) (F : Cell → α) : Prop where
  size : grid.values.toArray.size = rows * columns
  get? : ∀ cell, grid.get? cell = if cell.Inside rows columns then some (F cell) else none
  read : ∀ cell, grid.read cell =
    if cell.Inside rows columns then .ok (F cell)
    else .error (.outsideGrid cell.row cell.col rows columns)
  row : ∀ m, grid.row m =
    if m < rows then .ok ((List.range columns).map fun col => F ⟨m, col⟩)
    else .error (.missingRow m)
  cells : ∀ cell value, (cell, value) ∈ grid.cells ↔ cell.Inside rows columns ∧ F cell = value
  ordered : (grid.cells.map Prod.fst).Pairwise Cell.Precedes
  length : grid.cells.length = rows * columns

/-- What writes do to a grid that holds `F cell` in every cell. A write to a cell that is there
    changes what that cell holds, and nothing else. One to a cell that is not there is turned down
    and changes nothing. -/
structure CarriesOut (grid : Grid rows columns α) (F : Cell → α) : Prop where
  inside : ∀ write : Write α, write.cell.Inside rows columns →
    ∃ written, grid.write write = (write.answer (F write.cell), written) ∧
      written.Holds (Function.update F write.cell (write.leaves (F write.cell)))
  outside : ∀ write : Write α, ¬write.cell.Inside rows columns →
    grid.write write = (write.rejection rows columns, grid)

theorem get?_ofCells (F : Cell → α) (cell : Cell) :
    (ofCells rows columns F).get? cell
      = if cell.Inside rows columns then some (F cell) else none := by
  by_cases inside : cell.Inside rows columns
  · rw [if_pos inside, ofCells, get?_tabulate _ inside, Cell.ofPosition_position inside.2]
  · rw [if_neg inside, get?_outside _ inside]

theorem read_ofCells (F : Cell → α) (cell : Cell) :
    (ofCells rows columns F).read cell
      = if cell.Inside rows columns then .ok (F cell)
        else .error (.outsideGrid cell.row cell.col rows columns) := by
  rw [Grid.read, get?_ofCells]
  by_cases inside : cell.Inside rows columns
  · rw [if_pos inside, if_pos inside]
  · rw [if_neg inside, if_neg inside, outside]

theorem row_ofCells (F : Cell → α) (m : ℕ) :
    (ofCells rows columns F).row m
      = if m < rows then .ok ((List.range columns).map fun col => F ⟨m, col⟩)
        else .error (.missingRow m) := by
  by_cases below : m < rows
  · rw [if_pos below, ofCells, row_tabulate _ below]
    congr 1
    apply List.map_congr_left
    intro col member
    have inside : (⟨m, col⟩ : Cell).Inside rows columns := ⟨below, List.mem_range.mp member⟩
    exact congrArg F (Cell.ofPosition_position inside.2)
  · rw [if_neg below, Grid.row, if_neg below]

theorem mem_cells_ofCells_iff {F : Cell → α} {cell : Cell} {value : α} :
    (cell, value) ∈ (ofCells rows columns F).cells
      ↔ cell.Inside rows columns ∧ F cell = value := by
  rw [ofCells, cells_tabulate, List.mem_map]
  constructor
  · rintro ⟨i, member, same⟩
    obtain ⟨rfl, rfl⟩ := Prod.mk.inj same
    exact ⟨Cell.inside_ofPosition (List.mem_range.mp member), rfl⟩
  · rintro ⟨inside, rfl⟩
    refine ⟨cell.position columns, List.mem_range.mpr (Cell.position_lt inside), ?_⟩
    rw [Cell.ofPosition_position inside.2]

/-- The cells are listed row by row, and in each row from left to right. -/
theorem pairwise_cells_ofCells (F : Cell → α) :
    ((ofCells rows columns F).cells.map Prod.fst).Pairwise Cell.Precedes := by
  rw [ofCells, cells_tabulate, List.map_map, List.pairwise_map]
  refine List.pairwise_lt_range.imp_of_mem ?_
  intro i j first second before
  have inside := Cell.inside_ofPosition (List.mem_range.mp first)
  have inside' := Cell.inside_ofPosition (List.mem_range.mp second)
  show Cell.Precedes (.ofPosition columns i) (.ofPosition columns j)
  rw [Cell.precedes_iff_position inside.2 inside'.2, Cell.position_ofPosition,
    Cell.position_ofPosition]
  exact before

theorem holds_ofCells (F : Cell → α) : (ofCells rows columns F).Holds F := by
  constructor
  case size => exact Vector.size_toArray _
  case get? => exact get?_ofCells F
  case read => exact read_ofCells F
  case row => exact row_ofCells F
  case cells =>
    intro cell value
    exact mem_cells_ofCells_iff
  case ordered => exact pairwise_cells_ofCells F
  case length => rw [ofCells, cells_tabulate, List.length_map, List.length_range]

theorem carriesOut_ofCells (F : Cell → α) : (ofCells rows columns F).CarriesOut F := by
  constructor
  case inside =>
    intro write inside
    exact ⟨_, write_ofCells F inside, holds_ofCells _⟩
  case outside =>
    intro write outside
    exact write_outside _ outside

/-! ## Addresses -/

/-- The addresses of a grid are computed within the words: the place of a cell that is there, the
    two ends of a row that is there, and the cell at a place, for which nothing is divided by
    zero. -/
structure Addressable (rows columns : ℕ) : Prop where
  offset : ∀ cell : Cell, cell.Inside rows columns → ∃ i, Grid.offset rows columns cell = some i ∧
    (do Count.add (← Count.mul cell.row columns) cell.col) = .ok i.val
  row : ∀ m < rows, ∃ first last, Count.mul m columns = .ok first ∧
    (do Count.mul (← Count.add m 1) columns) = .ok last ∧ first ≤ last ∧ last ≤ rows * columns
  cells : ∀ i < rows * columns, i < Count.limit ∧ columns ≠ 0

theorem addressable (counted : rows < Count.limit) (fits : rows * columns < Count.limit) :
    Addressable rows columns := by
  constructor
  case offset =>
    intro cell inside
    exact exists_offset_eq fits inside
  case row =>
    intro m below
    have last : (m + 1) * columns ≤ rows * columns := Nat.mul_le_mul_right _ below
    have first : m * columns ≤ (m + 1) * columns := Nat.mul_le_mul_right _ (Nat.le_succ m)
    refine ⟨m * columns, (m + 1) * columns, Count.mul_eq_ok (by omega), ?_, first, last⟩
    rw [Count.add_eq_ok (by omega), ok_bind, Count.mul_eq_ok (by omega)]
  case cells =>
    intro i below
    exact ⟨Nat.lt_trans below fits, Nat.ne_of_gt (Cell.columns_pos_of_lt below)⟩

/-- Whatever was written to a grid whose cells can be counted, every cell holds the value that was
    written there last, or the fill value, however it is read. The next write is carried out if its
    cell is there and turned down otherwise. No address leaves the words. -/
theorem after_holds_lastWritten (rows columns : UInt64)
    (fits : rows.toNat * columns.toNat < Count.limit) (fill : α) (history : List (Write α)) :
    ∃ grid, after rows.toNat columns.toNat fill history = .ok grid ∧
      grid.Holds (lastWritten fill history) ∧ grid.CarriesOut (lastWritten fill history) ∧
      Addressable rows.toNat columns.toNat := by
  have made := after_eq_ok fits fill history
  exact ⟨_, made, holds_ofCells _, carriesOut_ofCells _, addressable rows.toNat_lt fits⟩

/-- Two rows of three cells: of the writes two are to cells that are not there and one faults. A
    grid without columns may have as many rows as can be counted; they are all empty. -/
theorem after_holds_lastWritten_two_by_three :
    let history : List (Write ℕ) :=
      [.set ⟨1, 2⟩ 7, .set ⟨0, 3⟩ 1, .modify ⟨1, 2⟩ (· + 1), .put ⟨2, 0⟩ 5,
        .update ⟨0, 1⟩ (Count.add 4), .update ⟨0, 1⟩ fun _ => .error .missingBit]
    2 * 3 < Count.limit ∧ (2 ^ 64 - 1) * 0 < Count.limit ∧
    (∃ grid, after 2 3 0 history = .ok grid ∧ grid.row 0 = .ok [0, 4, 0] ∧
      grid.row 1 = .ok [0, 0, 8] ∧ grid.get? ⟨0, 3⟩ = none ∧
      grid.write (.set ⟨0, 3⟩ 1) = (.refused ⟨⟨0, 3⟩, 2, 3⟩, grid)) ∧
    (∃ grid, after (2 ^ 64 - 1) 0 0 history = .ok grid ∧ grid.cells.length = 0 ∧
      grid.row (2 ^ 64 - 2) = .ok [] ∧
      grid.row (2 ^ 64 - 1) = .error (.missingRow (2 ^ 64 - 1))) := by
  intro history
  obtain ⟨grid, made, holds, carriesOut, -⟩ := after_holds_lastWritten 2 3 (by decide) 0 history
  obtain ⟨tall, made', holds', -, -⟩ :=
    after_holds_lastWritten 18446744073709551615 0 (by decide) 0 history
  refine ⟨by decide, by decide, ⟨grid, made, ?_, ?_, ?_, ?_⟩, tall, made', ?_, ?_, ?_⟩
  · exact holds.row 0
  · exact holds.row 1
  · exact holds.get? ⟨0, 3⟩
  · exact carriesOut.outside (.set ⟨0, 3⟩ 1) (by decide)
  · exact holds'.length
  · exact holds'.row (2 ^ 64 - 2)
  · exact holds'.row (2 ^ 64 - 1)

end Grid

end CoinSpend
