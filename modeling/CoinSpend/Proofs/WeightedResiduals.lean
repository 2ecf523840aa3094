import CoinSpend.Proofs.Extraction
import CoinSpend.Proofs.AggregatedResidual

/-!
# The folded equation relation by relation

The folded equation is computed from a grid of weights that has collected every wire of every
relation. What it is off by is the same as if every gate and every constraint had been evaluated on
its own and its residual multiplied by its own power of the challenge.
-/

namespace CoinSpend

open Residue

/-- The residuals of all gates and of all checked constraints, each multiplied by its own power of
    the challenge. -/
def BoundSystem.weightedResiduals (bound : BoundSystem) (wires : Wires) (y : Residue) :
    Checked Residue := do
  let rows := bound.system.layout.rows
  let columns := bound.system.layout.columns
  let gates ← wires.gates.cells.foldlM (fun sum (cell, gate) => do
    let residual ← (← gate.a.mul gate.b).sub gate.c
    sum.add (← residual.mul (y.pow (cell.row + 1 + rows * (cell.col + 1))))) y.zero
  (List.range (4 * bound.system.layout.serialSize - 2)).foldlM (fun sum i => do
    let residual ← (← bound.evaluate i wires).sub (← bound.constant i)
    sum.add (← residual.mul (y.pow (rows * (columns + 1) + 1 + i)))) gates

/-- What the folded equation is off by: its two folds less the constant. -/
def Aggregation.residual (aggregation : Aggregation) (wires : Wires) : Checked Residue := do
  let gates ← aggregation.gateFold wires
  let linear ← aggregation.linearFold wires
  (← gates.add linear).sub aggregation.constant

section

variable {q : ℕ} [NeZero q]

theorem Aggregation.residual_ofClass {system : LinearSystem} (fits : system.Fits q) (G y : ZMod q)
    (pads : ℕ) (V : Wire → ℕ → ZMod q) :
    (ofClass system G pads y).residual (.ofClasses system.layout V)
      = .ok (ofZMod (aggregatedResidual system G y V)) := by
  have constant : (ofClass system G pads y).constant = ofZMod (constantSum system y) := rfl
  rw [residual, gateFold_ofClass, ok_bind, linearFold_ofClass, ok_bind, add_ofZMod, ok_bind,
    constant, sub_ofZMod, folds_sub_constant fits]

variable {bound : BoundSystem} {G : ZMod q}

theorem BoundSystem.weightedResiduals_ofClasses (power : bound.serialPower = ofZMod G)
    (fits : bound.system.Fits q) (V : Wire → ℕ → ZMod q) (y : ZMod q) :
    bound.weightedResiduals (.ofClasses bound.system.layout V) (ofZMod y)
      = .ok (ofZMod (aggregatedResidual bound.system G y V)) := by
  have cells : (Wires.ofClasses bound.system.layout V).gates.cells
      = (List.range (bound.system.layout.rows * bound.system.layout.columns)).map fun i =>
          (bound.system.layout.cell i, classTriple fun wire => V wire i) :=
    Grid.cells_tabulate _
  rw [weightedResiduals, cells, zero_ofZMod, List.foldlM_map]
  dsimp only
  rw [foldlM_add ofZMod fun i => gateResidual V i
      * y ^ gateExponent bound.system.layout.rows bound.system.layout.columns i]
  · rw [ok_bind, foldlM_add ofZMod fun i => bound.system.residual G V i
      * y ^ (bound.system.layout.linearOffset + i), zero_add, sum_map_range, sum_map_range]
    · rfl
    · intro sum i member
      obtain ⟨value, constant, evaluated, constantEq, residual⟩ :=
        exists_evaluate_eq_ok power fits V (Layout.lt_constraintCount (List.mem_range.mp member))
      rw [evaluated, ok_bind, constantEq, ok_bind, sub_ofZMod, ok_bind, pow_ofZMod, mul_ofZMod,
        ok_bind, add_ofZMod, residual]
      rfl
  · intro sum i _
    simp only [classTriple, Triple.a_ofFn, Triple.b_ofFn, Triple.c_ofFn, mul_ofZMod, ok_bind,
      sub_ofZMod, pow_ofZMod, add_ofZMod]
    rfl

end

/-- Whether the wires satisfy the relations or not, the folded equation for a challenge of the field
    other than zero is off by the weighted residuals of the single relations, and its check succeeds
    exactly if they cancel out. -/
theorem residual_eq_weightedResiduals {p : Parameters} {system : LinearSystem}
    (built : LinearSystem.ofParameters p = .ok system) (serial : Residue)
    {wires : Wires} (sameLayout : wires.layout = system.layout) (ofField : wires.Over p.field)
    {y : Residue} (contained : p.field.Contains y) (nonzero : y.value ≠ 0)
    {pads : ℕ} (padded : system.layout.columns + pads < Count.limit) :
    let bound := system.bind serial
    ∃ aggregation residual,
      Aggregation.ofChallenge y bound pads = .ok aggregation ∧
      aggregation.residual wires = .ok residual ∧
      bound.weightedResiduals wires y = .ok residual ∧
      aggregation.check wires
        = if residual.isZero then .ok () else .error (.refused .aggregation) := by
  obtain ⟨layout, V, -, rfl, rfl⟩ := LinearSystem.exists_classes_of_built built sameLayout ofField
  have power := LinearSystem.serialPower_bind p layout serial
  have fits := LinearSystem.fits_onLayout p layout
  obtain ⟨z, rfl⟩ : ∃ z : ZMod p.field.modulus, y = ofZMod z := ⟨_, (ofZMod_toZMod contained).symm⟩
  have unit : z ≠ 0 := by rwa [value_ofZMod, ne_eq, ZMod.val_eq_zero] at nonzero
  intro bound
  refine ⟨_, _, Aggregation.ofChallenge_eq_ok power fits padded unit,
    Aggregation.residual_ofClass fits _ z pads V,
    BoundSystem.weightedResiduals_ofClasses power fits V z, ?_⟩
  refine (Aggregation.check_ofClass fits V).trans ?_
  simp only [isZero_ofZMod, decide_eq_true_eq]
  rfl

/-- A wrong second factor of the lowest bit, which violates its gate and two constraints. -/
theorem residual_eq_weightedResiduals_seven :
    let field := Parameters.seven.field
    let bound := (LinearSystem.onLayout .seven .seven).bind (field.residue 2)
    let wires := Wires.ofClasses Layout.seven (setClass honestSeven .b 0 3)
    ∃ aggregation, Aggregation.ofChallenge (field.residue 4) bound 1 = .ok aggregation ∧
      aggregation.residual wires = .ok (field.residue 4) ∧
      bound.weightedResiduals wires (field.residue 4) = .ok (field.residue 4) ∧
      aggregation.check wires = .error (.refused .aggregation) := by
  intro field bound wires
  have single : bound.weightedResiduals wires (field.residue 4) = .ok (field.residue 4) := by
    decide +kernel
  have ofField : wires.Over Parameters.seven.field := Wires.over_ofClasses _
  have contained : Parameters.seven.field.Contains (field.residue 4) := rfl
  have padded : Layout.seven.columns + 1 < Count.limit := by decide
  obtain ⟨aggregation, residual, made, folded, weighted, verdict⟩ :=
    residual_eq_weightedResiduals ofParameters_seven (field.residue 2) rfl ofField contained
      (by decide) padded
  obtain rfl : field.residue 4 = residual := Except.ok.inj (single.symm.trans weighted)
  exact ⟨aggregation, made, folded, single, verdict.trans (if_neg (by decide))⟩

end CoinSpend
