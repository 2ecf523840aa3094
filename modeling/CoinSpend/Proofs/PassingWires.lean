import CoinSpend.Proofs.Extraction
import CoinSpend.Proofs.SpendCircuits

/-!
# Wires that pass all checks

The check of the folded equation multiplies every gate with a power of the challenge. It only
answers when the wires hold residues of the field, and so nothing else has to be known of wires
that pass.
-/

namespace CoinSpend

open Residue

theorem Residue.modulus_of_mul_eq_ok {x y z : Residue} (h : x.mul y = .ok z) :
    z.modulus = x.modulus := by
  have sameField : x.SameField y := sameField_of_mul_eq_ok h
  rw [mul, if_pos sameField, Except.ok.injEq] at h
  rw [← h]
  rfl

section

variable {q : ℕ} [NeZero q] {system : LinearSystem} {G z : ZMod q} {pads : ℕ}
  {gates : Grid system.layout.rows system.layout.columns (Triple Residue)}

/-- The products that are added up are multiplied with powers of the challenge. -/
theorem modulus_of_gateFold {total : Residue}
    (answered : (Aggregation.ofClass system G pads z).gateFold ⟨system.layout, gates⟩ = .ok total)
    {cell : Cell} {gate : Triple Residue} (present : gates.get? cell = some gate) :
    gate.a.modulus = q ∧ gate.b.modulus = q := by
  obtain ⟨F, rfl⟩ := gates.exists_eq_tabulate gate
  have inside := Grid.inside_of_get? present
  rw [Grid.get?_tabulate F inside, Option.some.injEq] at present
  rw [Aggregation.gateFold, bind_eq_ok_iff] at answered
  obtain ⟨first, -, folded⟩ := answered
  -- The fold answered, so it took the step of this row, and in it that of this column.
  obtain ⟨before, after, step⟩ := foldlM_steps folded (List.mem_range.mpr inside.1)
  rw [Grid.row_tabulate F inside.1, ok_bind, bind_eq_ok_iff] at step
  obtain ⟨inner, rowFolded, -⟩ := step
  have column : (F (cell.row * system.layout.columns + cell.col),
        ofZMod (z ^ (system.layout.rows * (cell.col + 1))))
      ∈ ((List.range system.layout.columns).map fun col =>
          F (cell.row * system.layout.columns + col)).zip
        (Aggregation.ofClass system G pads z).columnPowers := by
    rw [Aggregation.ofClass, List.zip_map', List.mem_map]
    exact ⟨cell.col, List.mem_range.mpr inside.2, rfl⟩
  obtain ⟨before', after', step'⟩ := foldlM_steps rowFolded column
  obtain ⟨product, multiplied, rest⟩ := bind_eq_ok_iff.mp step'
  obtain ⟨weighted, weighed, -⟩ := bind_eq_ok_iff.mp rest
  have left : (F (cell.position system.layout.columns)).a.modulus = q :=
    (modulus_of_mul_eq_ok multiplied).symm.trans (sameField_of_mul_eq_ok weighed)
  have right := (sameField_of_mul_eq_ok multiplied).symm.trans left
  rw [← present]
  exact ⟨left, right⟩

/-- Every gate that is there multiplies. -/
theorem mul_of_checkGates {layout : Layout}
    {gates : Grid layout.rows layout.columns (Triple Residue)}
    (multiply : (⟨layout, gates⟩ : Wires).checkGates = .ok ()) {cell : Cell}
    {gate : Triple Residue} (present : gates.get? cell = some gate) :
    gate.a.mul gate.b = .ok gate.c := by
  obtain ⟨F, rfl⟩ := gates.exists_eq_tabulate gate
  have inside := Grid.inside_of_get? present
  rw [Grid.get?_tabulate F inside, Option.some.injEq] at present
  have listed : (cell, gate) ∈ (Grid.tabulate layout.rows layout.columns F).cells := by
    rw [Grid.cells_tabulate, List.mem_map]
    refine ⟨cell.position layout.columns, List.mem_range.mpr (Cell.position_lt inside), ?_⟩
    rw [Cell.ofPosition_position inside.2, present]
  rw [Wires.checkGates, forM_eq_ok_iff] at multiply
  have checked := multiply _ listed
  cases product : gate.a.mul gate.b with
  | error breach => simp [product] at checked
  | ok value =>
    by_cases right : value = gate.c
    · rw [right]
    · simp [product, right] at checked

end

/-- Wires that pass the check of the gates and that of the folded equation are of the field. -/
theorem Wires.over_of_check {field : PrimeField} {system : LinearSystem} {wires : Wires}
    {G z : ZMod field.modulus} {pads : ℕ} (sameLayout : wires.layout = system.layout)
    (multiply : wires.checkGates = .ok ())
    (folded : (Aggregation.ofClass system G pads z).check wires = .ok ()) : wires.Over field := by
  obtain ⟨layout, gates⟩ := wires
  cases sameLayout
  obtain ⟨total, answered, -⟩ := bind_eq_ok_iff.mp folded
  have answered := Attempt.liftM_eq_ok_iff.mp answered
  intro wire cell value present
  obtain ⟨gate, here, rfl⟩ := Option.map_eq_some_iff.mp present
  obtain ⟨left, right⟩ := modulus_of_gateFold answered here
  cases wire with
  | a => exact left
  | b => exact right
  | c => exact (modulus_of_mul_eq_ok (mul_of_checkGates multiply here)).trans left

/-- Wires that pass all checks of a circuit are given by classes that satisfy every relation. -/
theorem Circuit.exists_classes_of_check {p : Parameters} {layout : Layout}
    {serial commitment : Residue} {wires : Wires} (sameLayout : wires.layout = layout) {pads : ℕ}
    {z : ZMod p.field.modulus}
    (passed : (onLayout p layout serial commitment wires).check
      (.ofClass (.onLayout p layout) (p.gClass ^ serial.value) pads z) = .ok ()) :
    ∃ V : Wire → ℕ → ZMod p.field.modulus, wires = .ofClasses layout V ∧
      (∀ i < layout.rows * layout.columns, gateResidual V i = 0) ∧
      ofZMod (V .c (2 * layout.serialSize - 2)) = commitment ∧
      LinearRelations layout.serialSize p.hClass (p.gClass ^ serial.value) V := by
  obtain ⟨⟨⟩, gates, passed⟩ := bind_eq_ok_iff.mp passed
  obtain ⟨⟨⟩, opened, passed⟩ := bind_eq_ok_iff.mp passed
  obtain ⟨⟨⟩, constraints, folded⟩ := bind_eq_ok_iff.mp passed
  have ofField : wires.Over p.field := Wires.over_of_check sameLayout gates folded
  obtain ⟨V, rfl⟩ := Wires.exists_eq_ofClasses sameLayout ofField
  exact ⟨V, rfl, accepts_ofClasses.mp ⟨gates, opened, constraints⟩⟩

end CoinSpend
