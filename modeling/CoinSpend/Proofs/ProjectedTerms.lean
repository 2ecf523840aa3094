import CoinSpend.Proofs.StoredTerms

/-!
# Terms in the projections

Every stored term lies on one cell of one wire, so that it is listed in one column of one
projection. A column lists its terms by the number of their constraint, and since no constraint
names a wire cell twice, the numbers increase strictly.
-/

namespace CoinSpend

namespace LinearSystem

/-- The system stores the coefficient of an entry on a cell of a wire, in the constraint that the
    entry names. -/
def Stores (system : LinearSystem) (wire : Wire) (cell : Cell) (e : ColumnEntry) : Prop :=
  ∃ c, system.constraints[e.constraint]? = some c ∧
    ∃ term ∈ c.terms, term.wire = wire ∧ term.cell = cell ∧ term.coefficient = e.coefficient

/-- All stored terms, the final constraint included. -/
def allTerms (system : LinearSystem) : List Term :=
  system.constraints.toList.flatMap fun constraint => constraint.terms

end LinearSystem

namespace Projection

/-- The number of entries in all columns. -/
def entryCount (projection : Projection) : ℕ :=
  (projection.toList.map fun column => column.size).sum

/-- The projection has every column of the system, and each of them lists what the system stores on
    its cell of the row, in strictly increasing order of the constraints. -/
structure Lists (projection : Projection) (system : LinearSystem) (wire : Wire) (row : ℕ) :
    Prop where
  size : projection.size = system.layout.columns
  increasing : ∀ column ∈ projection,
    column.toList.Pairwise fun e later => e.constraint < later.constraint
  mem_iff : ∀ col column, projection[col]? = some column →
    ∀ e, e ∈ column ↔ system.Stores wire ⟨row, col⟩ e

theorem size_ofColumns (columns : ℕ) (F : ℕ → List ColumnEntry) :
    (ofColumns columns F).size = columns := by
  simp [ofColumns]

theorem getElem?_ofColumns_eq_some_iff {columns col : ℕ} {F : ℕ → List ColumnEntry}
    {column : Array ColumnEntry} :
    (ofColumns columns F)[col]? = some column ↔ col < columns ∧ column = (F col).toArray := by
  by_cases below : col < columns
  · rw [getElem?_ofColumns below, Option.some.injEq, eq_comm]
    exact (and_iff_right below).symm
  · have outside : (ofColumns columns F).size ≤ col := by
      rw [size_ofColumns]
      exact Nat.le_of_not_lt below
    simp [Array.getElem?_eq_none outside, below]

theorem entryCount_ofColumns (columns : ℕ) (F : ℕ → List ColumnEntry) :
    (ofColumns columns F).entryCount = ∑ col ∈ Finset.range columns, (F col).length := by
  rw [entryCount, ofColumns, List.map_map, sum_map_range]
  simp

end Projection

namespace LinearSystem

variable {system : LinearSystem} {wire : Wire} {cell : Cell}

/-! ## One column -/

/-- A column lists what is stored on its cell. -/
theorem mem_columnEntries {e : ColumnEntry} :
    e ∈ system.columnEntries wire cell ↔ system.Stores wire cell e := by
  rw [columnEntries, List.mem_flatMap]
  constructor
  · rintro ⟨⟨c, i⟩, row, listed⟩
    obtain ⟨rfl, stored⟩ := mem_entriesOf.mp listed
    exact ⟨c, Array.getElem?_toList.symm.trans (List.mem_zipIdx_iff_getElem?.mp row), stored⟩
  · rintro ⟨c, row, stored⟩
    refine ⟨(c, e.constraint), ?_, mem_entriesOf.mpr ⟨rfl, stored⟩⟩
    exact List.mem_zipIdx_iff_getElem?.mpr (Array.getElem?_toList.trans row)

/-- A constraint that names no wire cell twice has at most one entry in a column. -/
theorem pairwise_entriesOf {c : Constraint} {i : ℕ}
    (distinct : (c.terms.map fun term => (term.wire, term.cell)).Nodup) :
    (entriesOf wire cell c i).Pairwise fun e later => e.constraint < later.constraint := by
  have apart := ((List.pairwise_map.mp distinct).filter fun term => term.wire == wire).filter
    fun term => term.cell = cell
  rw [entriesOf, List.pairwise_map]
  apply apart.imp_of_mem
  intro term other first second different
  simp only [List.mem_filter, beq_iff_eq, decide_eq_true_eq] at first second
  obtain ⟨⟨-, termWire⟩, termCell⟩ := first
  obtain ⟨⟨-, otherWire⟩, otherCell⟩ := second
  refine absurd ?_ different
  rw [termWire, termCell, otherWire, otherCell]

theorem pairwise_columnEntries
    (distinct : ∀ c ∈ system.constraints, (c.terms.map fun term => (term.wire, term.cell)).Nodup) :
    (system.columnEntries wire cell).Pairwise fun e later => e.constraint < later.constraint := by
  have numbered : system.constraints.toList.zipIdx.Pairwise fun row later => row.2 < later.2 := by
    rw [← List.pairwise_map (f := Prod.snd) (R := fun i j => i < j), List.zipIdx_map_snd]
    exact List.pairwise_lt_range'
  rw [columnEntries, List.pairwise_flatMap]
  constructor
  · rintro ⟨c, i⟩ row
    have member := List.fst_mem_of_mem_zipIdx row
    exact pairwise_entriesOf (distinct c (Array.mem_toList_iff.mp member))
  · apply numbered.imp
    intro row later before e listed e' listed'
    rw [(mem_entriesOf.mp listed).1, (mem_entriesOf.mp listed').1]
    exact before

/-! ## Counting -/

theorem length_columnEntries :
    (system.columnEntries wire cell).length
      = system.allTerms.countP fun term => term.wire = wire ∧ term.cell = cell := by
  have one (c : Constraint) (i : ℕ) : (entriesOf wire cell c i).length
      = c.terms.countP fun term => term.wire = wire ∧ term.cell = cell := by
    simp [entriesOf, Constraint.termsOnWire, List.countP_eq_length_filter, List.filter_filter,
      Bool.and_comm, beq_eq_decide]
  have numbered : system.allTerms
      = system.constraints.toList.zipIdx.flatMap fun numbered => numbered.1.terms := by
    rw [allTerms, ← List.flatMap_map Prod.fst (fun c : Constraint => c.terms), List.zipIdx_map_fst]
  rw [columnEntries, List.length_flatMap, numbered, List.countP_flatMap]
  simp only [one, Function.comp_def]

/-- A term inside the grid is on one cell of one wire. -/
theorem sum_cells_eq_one {rows columns : ℕ} {term : Term} (inside : term.cell.Inside rows columns) :
    (Wire.all.map fun wire => ∑ row ∈ Finset.range rows, ∑ col ∈ Finset.range columns,
      if term.wire = wire ∧ term.cell = ⟨row, col⟩ then 1 else 0).sum = 1 := by
  have here (row col : ℕ) : term.cell = ⟨row, col⟩ ↔ term.cell.row = row ∧ term.cell.col = col := by
    cases term.cell
    simp
  have once (wire : Wire) : (∑ row ∈ Finset.range rows, ∑ col ∈ Finset.range columns,
      if term.wire = wire ∧ term.cell = ⟨row, col⟩ then 1 else 0)
        = if term.wire = wire then 1 else 0 := by
    by_cases same : term.wire = wire
    · simp [same, here, ite_and, inside.1, inside.2]
    · simp [same]
  simp only [once]
  cases term.wire <;> simp [Wire.all]

/-- The terms inside the grid, counted cell by cell. -/
theorem sum_cells_countP {rows columns : ℕ} {terms : List Term}
    (inside : ∀ term ∈ terms, term.cell.Inside rows columns) :
    (Wire.all.map fun wire => ∑ row ∈ Finset.range rows, ∑ col ∈ Finset.range columns,
      terms.countP fun term => term.wire = wire ∧ term.cell = ⟨row, col⟩).sum = terms.length := by
  induction terms with
  | nil => simp
  | cons term later ih =>
    obtain ⟨first, others⟩ := List.forall_mem_cons.mp inside
    simp only [List.countP_cons, decide_eq_true_eq, Finset.sum_add_distrib, List.sum_map_add]
    rw [ih others, sum_cells_eq_one first, List.length_cons]

variable {p : Parameters} {layout : Layout}

/-- The projection of a row of a wire, as it is made for the system on a layout. -/
def projectionOnLayout (p : Parameters) (layout : Layout) (wire : Wire) (row : ℕ) : Projection :=
  .ofColumns layout.columns fun col => (onLayout p layout).columnEntries wire ⟨row, col⟩

theorem lists_projectionOnLayout (sparse : (onLayout p layout).Sparse p) (wire : Wire) (row : ℕ) :
    (projectionOnLayout p layout wire row).Lists (onLayout p layout) wire row where
  size := Projection.size_ofColumns _ _
  increasing := by
    intro column member
    obtain ⟨col, present⟩ := Array.mem_iff_getElem?.mp member
    obtain ⟨-, rfl⟩ := Projection.getElem?_ofColumns_eq_some_iff.mp present
    exact pairwise_columnEntries sparse.distinct
  mem_iff := by
    intro col column present e
    obtain ⟨-, rfl⟩ := Projection.getElem?_ofColumns_eq_some_iff.mp present
    rw [List.mem_toArray]
    exact mem_columnEntries

theorem inside_of_mem_allTerms {term : Term} (member : term ∈ (onLayout p layout).allTerms) :
    term.cell.Inside layout.rows layout.columns := by
  obtain ⟨c, row, kept⟩ := List.mem_flatMap.mp member
  exact ((fits_onLayout p layout).row c (Array.mem_toList_iff.mp row)).cell term kept

theorem inside_of_stores {wire : Wire} {cell : Cell} {e : ColumnEntry}
    (stored : (onLayout p layout).Stores wire cell e) : cell.Inside layout.rows layout.columns := by
  obtain ⟨c, row, term, kept, -, rfl, -⟩ := stored
  have present : c ∈ (onLayout p layout).constraints.toList :=
    Array.mem_toList_iff.mpr (Array.mem_of_getElem? row)
  exact inside_of_mem_allTerms (List.mem_flatMap.mpr ⟨c, present, kept⟩)

/-- Below the last row of the grid nothing is stored. -/
theorem projectionOnLayout_below {wire : Wire} {row : ℕ} (below : layout.rows ≤ row) :
    projectionOnLayout p layout wire row = Array.replicate layout.columns #[] := by
  rw [← Projection.ofColumns_empty, projectionOnLayout]
  congr 1
  funext col
  apply List.eq_nil_iff_forall_not_mem.mpr
  intro e listed
  have inside := inside_of_stores (mem_columnEntries.mp listed)
  exact Nat.not_lt.mpr below inside.1

theorem sum_entryCount :
    (Wire.all.map fun wire => ∑ row ∈ Finset.range layout.rows,
      (projectionOnLayout p layout wire row).entryCount).sum = (onLayout p layout).termCount := by
  simp only [projectionOnLayout, Projection.entryCount_ofColumns, length_columnEntries]
  exact sum_cells_countP fun _ => inside_of_mem_allTerms

/-- The projections of a built system lose no stored term and list none of them twice: every column
    is exact and in strictly increasing order, rows below the grid have empty columns, and the
    entries of all projections together are as many as the stored terms. -/
theorem projections_exact {p : Parameters} {system : LinearSystem}
    (built : ofParameters p = .ok system) :
    ∃ projection : Wire → ℕ → Projection,
      (∀ wire row, system.project wire row = .ok (projection wire row) ∧
        (projection wire row).Lists system wire row ∧
        (system.layout.rows ≤ row →
          projection wire row = Array.replicate system.layout.columns #[])) ∧
      (Wire.all.map fun wire => ∑ row ∈ Finset.range system.layout.rows,
        (projection wire row).entryCount).sum = system.termCount := by
  obtain ⟨layout, accepted, rfl⟩ := ofParameters_eq_ok_iff.mp built
  have sparse : (onLayout p layout).Sparse p :=
    sparse_onLayout (Layout.describes_of_ofShape accepted).serialSize
  refine ⟨projectionOnLayout p layout, ?_, sum_entryCount⟩
  intro wire row
  exact ⟨project_eq_ok (fits_onLayout p layout) wire row, lists_projectionOnLayout sparse wire row,
    projectionOnLayout_below⟩

/-- With the opposite of one as second generator the recurrences have no term on the bits. The first
    bit has an entry in the anchor besides, and the third row is below the grid. -/
theorem projections_exact_opposite :
    let field := Parameters.opposite.field
    let system := onLayout .opposite .seven
    ∃ projection : Wire → ℕ → Projection,
      projection .a 0 = #[#[⟨0, field.one⟩], #[⟨1, field.one⟩], #[⟨2, field.one⟩]] ∧
      (projection .b 0)[0]? = some #[⟨0, field.ofInt (-1)⟩, ⟨8, field.ofInt (1 - 6)⟩] ∧
      (projection .b 0).Lists system .b 0 ∧
      projection .b 2 = #[#[], #[], #[]] ∧
      (Wire.all.map fun wire => ∑ row ∈ Finset.range 2, (projection wire row).entryCount).sum
        = 16 := by
  intro field system
  obtain ⟨projection, projected, total⟩ := projections_exact ofParameters_opposite
  have firstA : system.project .a 0
      = .ok #[#[⟨0, field.one⟩], #[⟨1, field.one⟩], #[⟨2, field.one⟩]] := by decide
  have firstB : system.project .b 0 = .ok #[#[⟨0, field.ofInt (-1)⟩, ⟨8, field.ofInt (1 - 6)⟩],
      #[⟨1, field.ofInt (-1)⟩], #[⟨2, field.ofInt (-1)⟩]] := by decide
  have rowA := Except.ok.inj ((projected .a 0).1.symm.trans firstA)
  have rowB := Except.ok.inj ((projected .b 0).1.symm.trans firstB)
  refine ⟨projection, rowA, ?_, (projected .b 0).2.1, (projected .b 2).2.2 (by decide),
    total.trans (by decide)⟩
  rw [rowB]
  rfl

end LinearSystem

end CoinSpend
