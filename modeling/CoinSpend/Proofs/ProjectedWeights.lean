import CoinSpend.Proofs.AggregatedResidual
import CoinSpend.Proofs.StoredTerms

/-!
# Projected weights

The weights of a challenge are collected constraint by constraint, with the coefficients that are
bound to the serial number, and the projections list the unbound coefficients column by column, the
final constraint included. The weight of a wire is nevertheless what its column says: the checked
entries, each with its own power, and for a product the power of its gate.
-/

namespace CoinSpend

open Residue

section

variable {q : ℕ}

/-- What an entry of a column adds to the weight of its wire, where `G` is the class of the serial
    power, which scales the product in the last checked constraint. -/
def ColumnEntry.weight (layout : Layout) (G y : ZMod q) (wire : Wire) (e : ColumnEntry) : ZMod q :=
  e.coefficient.toZMod q * (if wire = .c ∧ e.constraint = layout.lastLink then G else 1)
    * y ^ (layout.linearOffset + e.constraint)

/-- The weight of a wire by the entries of its column. -/
def columnWeight (layout : Layout) (G y : ZMod q) (wire : Wire) (cell : Cell)
    (column : List ColumnEntry) : ZMod q :=
  ((column.filter fun e => e.constraint < layout.checkedCount).map
      (ColumnEntry.weight layout G y wire)).sum
    - if wire = .c then y ^ (cell.row + 1 + layout.rows * (cell.col + 1)) else 0

theorem singleClass_eq (wire other : Wire) (i j : ℕ) (z : ZMod q) :
    singleClass wire i z other j = if wire = other ∧ i = j then z else 0 := by
  by_cases sameWire : wire = other
  · subst sameWire
    by_cases here : i = j
    · subst here
      simp [singleClass]
    · simp [singleClass, here, Ne.symm here]
  · simp [singleClass, sameWire, Ne.symm sameWire]

/-- A constraint weighs a wire by its terms on the cell of the wire. -/
theorem rowWeights_position {layout : Layout} {c : Constraint} (fits : c.Fits q layout)
    (G z : ZMod q) (wire : Wire) {cell : Cell} (inside : cell.Inside layout.rows layout.columns) :
    rowWeights layout.columns G z c wire (cell.position layout.columns)
      = (((c.termsOnWire wire).filter fun term => term.cell = cell).map fun term =>
          term.weight q G * z).sum := by
  have single (term : Term) (member : term ∈ c.terms) :
      singleClass term.wire (term.cell.position layout.columns) (term.weight q G * z) wire
          (cell.position layout.columns)
        = if term.wire = wire ∧ term.cell = cell then term.weight q G * z else 0 := by
    rw [singleClass_eq]
    exact if_congr (and_congr_right fun _ =>
      Cell.position_inj (fits.cell term member).2 inside.2) rfl rfl
  rw [rowWeights, Pi.list_sum_apply, Pi.list_sum_apply, List.map_map, List.map_map]
  dsimp only [Function.comp_def]
  rw [List.map_congr_left single, List.sum_map_ite]
  simp only [Constraint.termsOnWire, List.filter_filter, List.map_const', List.sum_replicate,
    smul_zero, add_zero, Bool.decide_and, Bool.and_comm, beq_eq_decide]

end

namespace LinearSystem

variable {system : LinearSystem} {q : ℕ}

theorem zipIdx_constraints (fits : system.Fits q) :
    system.constraints.toList.zipIdx = system.checked.zipIdx
      ++ (system.constraints.toList.drop system.layout.checkedCount).zipIdx
          system.layout.checkedCount := by
  have whole : system.checked ++ system.constraints.toList.drop system.layout.checkedCount
      = system.constraints.toList := List.take_append_drop _ _
  conv_lhs => rw [← whole]
  rw [List.zipIdx_append, fits.length_checked, Nat.zero_add]

/-- The checked entries of a column are those of the checked constraints. -/
theorem filter_columnEntries (fits : system.Fits q) (wire : Wire) (cell : Cell) :
    (system.columnEntries wire cell).filter (fun e => e.constraint < system.layout.checkedCount)
      = system.checked.zipIdx.flatMap fun numbered =>
          entriesOf wire cell numbered.1 numbered.2 := by
  have before : ∀ e ∈ system.checked.zipIdx.flatMap fun numbered =>
      entriesOf wire cell numbered.1 numbered.2, e.constraint < system.layout.checkedCount := by
    intro e member
    obtain ⟨⟨c, i⟩, row, listed⟩ := List.mem_flatMap.mp member
    rw [(mem_entriesOf.mp listed).1]
    exact (fits.of_mem_zipIdx row).1
  have after : ∀ e ∈ ((system.constraints.toList.drop system.layout.checkedCount).zipIdx
      system.layout.checkedCount).flatMap fun numbered =>
        entriesOf wire cell numbered.1 numbered.2, ¬e.constraint < system.layout.checkedCount := by
    intro e member
    obtain ⟨⟨c, i⟩, row, listed⟩ := List.mem_flatMap.mp member
    rw [(mem_entriesOf.mp listed).1]
    exact Nat.not_lt.mpr (List.le_snd_of_mem_zipIdx row)
  rw [columnEntries, zipIdx_constraints fits, List.flatMap_append, List.filter_append,
    List.filter_eq_self.mpr fun e member => decide_eq_true (before e member),
    List.filter_eq_nil_iff.mpr fun e member => by simpa using after e member, List.append_nil]

end LinearSystem

/-! ## Weights by column -/

section

variable {p : Parameters} {layout : Layout} (G y : ZMod p.field.modulus) (wire : Wire) {cell : Cell}

/-- What the checked constraint `i` adds to the weight of a wire is what its entries add. -/
theorem rowWeights_eq_entries {i : ℕ} {c : Constraint}
    (row : (systemRows layout p.hClass)[i]? = some c)
    (inside : cell.Inside layout.rows layout.columns) :
    rowWeights layout.columns G (y ^ (layout.linearOffset + i)) c wire
        (cell.position layout.columns)
      = ((LinearSystem.entriesOf wire cell c i).map (ColumnEntry.weight layout G y wire)).sum := by
  rw [rowWeights_position (fits_systemRows (List.mem_of_getElem? row)) G _ wire inside,
    LinearSystem.entriesOf, List.map_map]
  congr 1
  apply List.map_congr_left
  intro term member
  have onWire : term ∈ c.termsOnWire wire := List.mem_of_mem_filter member
  have sameWire : term.wire = wire := by simpa using (List.mem_filter.mp onWire).2
  have kept : term ∈ c.terms := List.mem_of_mem_filter onWire
  have scaled : term.serialScaled = true ↔ wire = .c ∧ i = layout.lastLink := by
    rw [(Constraint.stored_of_row row).scaled term kept, sameWire]
  rw [Term.weight]
  simp only [scaled, Function.comp_apply, ColumnEntry.weight]

theorem checkedWeights_eq_entries (inside : cell.Inside layout.rows layout.columns) :
    checkedWeights (.onLayout p layout) G y wire (cell.position layout.columns)
      = ((((LinearSystem.onLayout p layout).columnEntries wire cell).filter fun e =>
          e.constraint < layout.checkedCount).map (ColumnEntry.weight layout G y wire)).sum := by
  have filtered : ((LinearSystem.onLayout p layout).columnEntries wire cell).filter
      (fun e => e.constraint < layout.checkedCount) = _ :=
    LinearSystem.filter_columnEntries (LinearSystem.fits_onLayout p layout) wire cell
  rw [filtered, checkedWeights, Pi.list_sum_apply, Pi.list_sum_apply, List.map_map, List.map_map,
    List.map_flatMap, List.flatMap_def, List.sum_flatten, List.map_map]
  congr 1
  apply List.map_congr_left
  rintro ⟨c, i⟩ member
  have row := LinearSystem.getElem?_of_mem_zipIdx_checked member
  rw [LinearSystem.onLayout, List.getElem?_toArray] at row
  exact rowWeights_eq_entries G y wire row inside

/-- The gate of a cell weighs its product alone. -/
theorem writeClasses_position (inside : cell.Inside layout.rows layout.columns) :
    writeClasses .c (productWeight y layout.rows layout.columns) 0
        (positions layout.rows layout.columns) wire (cell.position layout.columns)
      = -if wire = .c then y ^ (cell.row + 1 + layout.rows * (cell.col + 1)) else 0 := by
  by_cases product : wire = .c
  · rw [product, writeClasses_mem (mem_positions (Cell.position_lt inside)), if_pos rfl,
      productWeight, Cell.position, gateExponent_row inside.2]
  · rw [writeClasses_of_wire_ne _ _ _ product, if_neg product, neg_zero]
    rfl

/-- The gates and the checked constraints together give a wire the weight of its column. -/
theorem wireWeights_eq_columnWeight (inside : cell.Inside layout.rows layout.columns) :
    wireWeights (.onLayout p layout) G y wire (cell.position layout.columns)
      = columnWeight layout G y wire cell
          ((LinearSystem.onLayout p layout).columnEntries wire cell) := by
  have parts : wireWeights (.onLayout p layout) G y wire (cell.position layout.columns)
      = writeClasses .c (productWeight y layout.rows layout.columns) 0
          (positions layout.rows layout.columns) wire (cell.position layout.columns)
        + checkedWeights (.onLayout p layout) G y wire (cell.position layout.columns) := rfl
  rw [parts, writeClasses_position y wire inside, checkedWeights_eq_entries G y wire inside,
    columnWeight, neg_add_eq_sub]

end

/-- The weight of every wire in the aggregation of a challenge is given by the column of the wire in
    the projection of its row. -/
theorem weights_eq_columnWeight {p : Parameters} {system : LinearSystem}
    (built : LinearSystem.ofParameters p = .ok system) (serial : Residue) {y : Residue}
    (contained : p.field.Contains y) (nonzero : y.value ≠ 0) {pads : ℕ}
    (padded : system.layout.columns + pads < Count.limit) :
    ∃ aggregation, Aggregation.ofChallenge y (system.bind serial) pads = .ok aggregation ∧
      ∀ wire m col, m < system.layout.rows → col < system.layout.columns →
        ∃ projection column weights, system.project wire m = .ok projection ∧
          projection[col]? = some column ∧
          aggregation.weights.get? ⟨m, col⟩ = some weights ∧
          weights.on wire = ofZMod (columnWeight system.layout (p.gClass ^ serial.value)
            (y.toZMod p.field.modulus) wire ⟨m, col⟩ column.toList) := by
  obtain ⟨layout, -, rfl⟩ := LinearSystem.ofParameters_eq_ok_iff.mp built
  have fits := LinearSystem.fits_onLayout p layout
  have challenge : y.toZMod p.field.modulus ≠ 0 := mt (toZMod_eq_zero_iff contained).mp nonzero
  have made := Aggregation.ofChallenge_eq_ok (LinearSystem.serialPower_bind p layout serial) fits
    padded challenge
  rw [ofZMod_toZMod contained] at made
  refine ⟨_, made, ?_⟩
  intro wire m col row below
  have inside : (⟨m, col⟩ : Cell).Inside layout.rows layout.columns := ⟨row, below⟩
  refine ⟨_, _, _, LinearSystem.project_eq_ok fits wire m,
    Projection.getElem?_ofColumns below _, Grid.get?_tabulate _ inside, ?_⟩
  rw [classTriple_on]
  exact congrArg ofZMod (wireWeights_eq_columnWeight _ _ wire inside)

/-- The product in the last checked constraint has one entry, whose coefficient is minus one. Its
    weight has the power of the serial number two besides, and the power of the gate. -/
theorem weights_eq_columnWeight_seven :
    let field := Parameters.seven.field
    let system := LinearSystem.onLayout .seven .seven
    ∃ aggregation projection weights,
      Aggregation.ofChallenge (field.residue 3) (system.bind (field.residue 2)) 1
        = .ok aggregation ∧
      system.project .c 1 = .ok projection ∧
      projection[0]? = some #[⟨9, field.ofInt (-1)⟩] ∧
      aggregation.weights.get? ⟨1, 0⟩ = some weights ∧
      weights.c = field.ofInt (-1 * 3 ^ 2 * 3 ^ (9 + 9) - 3 ^ (2 + 2)) := by
  intro field system
  have contained : field.Contains (field.residue 3) := rfl
  have padded : Layout.seven.columns + 1 < Count.limit := by decide
  obtain ⟨aggregation, made, agree⟩ :=
    weights_eq_columnWeight ofParameters_seven (field.residue 2) contained (by decide) padded
  obtain ⟨projection, column, weights, projected, present, weighed, value⟩ :=
    agree .c 1 0 (by decide) (by decide)
  have listed : system.project .c 1
      = .ok #[#[⟨9, field.ofInt (-1)⟩], #[⟨10, field.ofInt 1⟩], #[]] := by decide
  obtain rfl : _ = projection := Except.ok.inj (listed.symm.trans projected)
  obtain rfl : _ = column := Option.some.inj present
  exact ⟨aggregation, _, weights, made, listed, rfl, weighed, value.trans (by decide)⟩

end CoinSpend
