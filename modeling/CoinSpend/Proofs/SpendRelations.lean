import CoinSpend.Proofs.Residuals

/-!
# The relations of a spend circuit

The residuals of the constraints that are built for a parameter set, family by family, and the
linear relations between the wires that they amount to.
-/

namespace CoinSpend

open Residue

section

variable {q : ℕ} [NeZero q] {layout : Layout}

private theorem fits_of_used {kind : ConstraintFamily} {terms : List Term} {constant : ZMod q}
    (h : ∀ term ∈ terms, term.coefficient.modulus = q ∧
      ∃ i < 2 * layout.serialSize - 1, term.cell = layout.cell i) :
    (Constraint.ofTerms kind terms (ofZMod constant)).Fits q layout := by
  apply fits_ofTerms (modulus_ofZMod constant)
  intro term member
  obtain ⟨modulus, i, below, cell⟩ := h term member
  rw [cell]
  exact ⟨modulus, layout.inside_of_used below⟩

theorem fits_systemRows {h : ZMod q} {c : Constraint} (member : c ∈ systemRows layout h) :
    c.Fits q layout := by
  have size := layout.three_le_serialSize
  simp only [systemRows, List.mem_append, List.mem_map, List.mem_range, List.mem_cons,
    List.not_mem_nil, or_false] at member
  -- The cells of all rows are in use, whatever the family.
  rcases member with
    ⟨k, below, rfl⟩ | ⟨k, below, rfl⟩ | ⟨k, below, rfl⟩ | rfl | ⟨k, below, rfl⟩ | rfl
  all_goals
    apply fits_of_used
    simp only [List.forall_mem_cons, List.not_mem_nil, false_implies, implies_true, and_true]
  · exact ⟨⟨rfl, k, by omega, rfl⟩, rfl, k, by omega, rfl⟩
  · exact ⟨rfl, k, by omega, rfl⟩
  · exact ⟨⟨rfl, k + 1, by omega, rfl⟩, rfl, layout.serialSize + k, by omega, rfl⟩
  · exact ⟨⟨rfl, layout.serialSize, by omega, rfl⟩, rfl, 0, by omega, rfl⟩
  · exact ⟨⟨rfl, layout.serialSize + (k + 1), by omega, rfl⟩, rfl, layout.serialSize + k, by omega,
      rfl⟩
  · exact ⟨rfl, 2 * layout.serialSize - 2, by omega, layout.lastCell_eq⟩

end

namespace LinearSystem

variable (p : Parameters) (layout : Layout)

theorem fits_onLayout : (onLayout p layout).Fits p.field.modulus where
  generator := p.isGenerator_g.1
  size := by rw [onLayout, List.size_toArray, length_systemRows]
  row := fun _ member => fits_systemRows (List.mem_toArray.mp member)

theorem serialPower_bind (serial : Residue) :
    ((onLayout p layout).bind serial).serialPower = ofZMod (p.gClass ^ serial.value) :=
  (fits_onLayout p layout).serialPower_eq serial

variable {p layout} (G : ZMod p.field.modulus) (V : Wire → ℕ → ZMod p.field.modulus) {k : ℕ}

private theorem residual_of_row {i : ℕ} {c : Constraint}
    (row : (systemRows layout p.hClass)[i]? = some c) :
    (onLayout p layout).residual G V i = c.residual layout.columns G V := by
  have present : (onLayout p layout).constraints[i]? = some c := by
    rw [onLayout, List.getElem?_toArray, row]
  rw [residual, present]
  rfl

theorem residual_complement (below : k < layout.serialSize) :
    (onLayout p layout).residual G V k = V .a k - V .b k - 1 := by
  rw [residual_of_row G V (systemRows_complement _ below), complementRow, residual_ofTerms]
  simp [termSum, Term.weight, layout.position_cell, sub_eq_add_neg]

theorem residual_product (below : k < layout.serialSize) :
    (onLayout p layout).residual G V (layout.serialSize + k) = V .c k := by
  rw [residual_of_row G V (systemRows_product _ below), productRow, residual_ofTerms]
  simp [termSum, Term.weight, layout.position_cell]

theorem residual_recurrence (below : k + 1 < layout.serialSize) :
    (onLayout p layout).residual G V (2 * layout.serialSize + k)
      = (p.hClass ^ 2 ^ (k + 1) - 1) * V .a (k + 1) - V .b (layout.serialSize + k) + 1 := by
  rw [residual_of_row G V (systemRows_recurrence _ below), recurrenceRow, residual_ofTerms]
  simp [termSum, Term.weight, layout.position_cell, sub_eq_add_neg]

theorem residual_anchor :
    (onLayout p layout).residual G V (3 * layout.serialSize - 1)
      = V .a layout.serialSize + (1 - p.hClass) * V .b 0 - p.hClass := by
  rw [residual_of_row G V (systemRows_anchor _), anchorRow, residual_ofTerms]
  simp [termSum, Term.weight, layout.position_cell]

theorem residual_chain (below : k + 2 < layout.serialSize) :
    (onLayout p layout).residual G V (3 * layout.serialSize + k)
      = V .a (layout.serialSize + (k + 1))
        - (if k + 1 = layout.lastStep then G else 1) * V .c (layout.serialSize + k) := by
  rw [residual_of_row G V (systemRows_chain _ below), chainRow, residual_ofTerms]
  by_cases last : k + 1 = layout.lastStep
  · simp [termSum, Term.weight, layout.position_cell, sub_eq_add_neg, last]
  · simp [termSum, Term.weight, layout.position_cell, sub_eq_add_neg, last]

theorem residual_selection :
    (onLayout p layout).residual G V layout.checkedCount = V .c (2 * layout.serialSize - 2) := by
  rw [residual_of_row G V (systemRows_selection _), selectionRow, residual_ofTerms]
  simp [termSum, Term.weight, layout.lastCell_eq, layout.position_cell]

/-- Wires of the field over a built system, and the system, in terms of classes. -/
theorem exists_classes_of_built {system : LinearSystem} (built : ofParameters p = .ok system)
    {wires : Wires} (sameLayout : wires.layout = system.layout) (ofField : wires.Over p.field) :
    ∃ layout, ∃ V : Wire → ℕ → ZMod p.field.modulus, Layout.ofShape p.shape = .ok layout ∧
      system = onLayout p layout ∧ wires = .ofClasses layout V := by
  obtain ⟨layout, accepted, rfl⟩ := ofParameters_eq_ok_iff.mp built
  obtain ⟨V, classes⟩ := Wires.exists_eq_ofClasses sameLayout ofField
  exact ⟨layout, V, accepted, rfl, classes⟩

end LinearSystem

end CoinSpend
