import CoinSpend.Proofs.Extraction
import CoinSpend.Proofs.SpendCircuits

/-!
# Verdicts do not depend on the challenge

The wires of a circuit may be overwritten at will with residues of the field. What the check answers
is then decided by the gates, the commitment and the constraints alone: the folded equation holds
whenever they do, for every challenge other than zero and for every number of pads.
-/

namespace CoinSpend

open Residue

/-! ## Overwritten wires -/

/-- Another value for one wire of a gate. -/
structure Overwrite where
  wire : Wire
  cell : Cell
  value : Residue

namespace Wires

/-- Takes the new value over, unless it is refused. -/
def overwrite (wires : Wires) (change : Overwrite) : Wires :=
  match wires.set change.wire change.cell change.value with
  | .ok changed => changed
  | .error _ => wires

/-- Takes over one value after the other. -/
def overwriteAll (wires : Wires) (changes : List Overwrite) : Wires :=
  changes.foldl overwrite wires

theorem set_outside (wires : Wires) (wire : Wire) {cell : Cell}
    (outside : ¬cell.Inside wires.layout.rows wires.layout.columns) (value : Residue) :
    wires.set wire cell value = .error ⟨cell, wires.layout.rows, wires.layout.columns⟩ := by
  rw [set, Grid.modify?_outside _ outside]

variable {field : PrimeField}

/-- A residue of the field leaves wires of the field, wherever it is written. -/
theorem exists_classes_overwrite (layout : Layout) (V : Wire → ℕ → ZMod field.modulus)
    {change : Overwrite} (contained : field.Contains change.value) :
    ∃ V' : Wire → ℕ → ZMod field.modulus,
      (ofClasses layout V).overwrite change = ofClasses layout V' := by
  by_cases inside : change.cell.Inside layout.rows layout.columns
  · have written := set_ofClasses V change.wire inside (change.value.toZMod field.modulus)
    rw [ofZMod_toZMod contained] at written
    exact ⟨_, by rw [overwrite, written]⟩
  · have refused := set_outside (ofClasses layout V) change.wire inside change.value
    exact ⟨V, by rw [overwrite, refused]⟩

theorem exists_classes_overwriteAll (layout : Layout) (V : Wire → ℕ → ZMod field.modulus)
    {changes : List Overwrite} (contained : ∀ change ∈ changes, field.Contains change.value) :
    ∃ V' : Wire → ℕ → ZMod field.modulus,
      (ofClasses layout V).overwriteAll changes = ofClasses layout V' := by
  induction changes generalizing V with
  | nil => exact ⟨V, rfl⟩
  | cons first later ih =>
    obtain ⟨V', here⟩ := exists_classes_overwrite layout V (contained first List.mem_cons_self)
    obtain ⟨V'', rest⟩ := ih V' fun change member =>
      contained change (List.mem_cons_of_mem _ member)
    refine ⟨V'', ?_⟩
    rw [overwriteAll, List.foldl_cons, here]
    exact rest

end Wires

/-! ## The folded equation is redundant -/

/-- The first three checks, without the folded equation. -/
def BoundSystem.checkSeparately (bound : BoundSystem) (wires : Wires) (commitment : Residue) :
    Attempt CheckError Unit := do
  wires.checkGates
  wires.checkCommitment commitment
  bound.checkConstraints wires

section

variable {q : ℕ} [NeZero q] {bound : BoundSystem} {G : ZMod q}
  (power : bound.serialPower = ofZMod G) (fits : bound.system.Fits q)
  (V : Wire → ℕ → ZMod q) (commitment : Residue)

include power fits

/-- Over wires of the field the first three checks only refuse. -/
theorem BoundSystem.checkSeparately_cases :
    bound.checkSeparately (.ofClasses bound.system.layout V) commitment = .ok () ∨
      ∃ error : CheckError, error ≠ .aggregation ∧
        bound.checkSeparately (.ofClasses bound.system.layout V) commitment
          = .error (.refused error) := by
  have gates : (Wires.ofClasses bound.system.layout V).checkGates = .ok () ∨ ∃ i,
      (Wires.ofClasses bound.system.layout V).checkGates
        = .error (.refused (.gate (bound.system.layout.cell i))) := by
    rw [Wires.checkGates_ofClasses]
    exact forM_require_cases
  have final := require_cases
    (P := ofZMod (V .c (2 * bound.system.layout.serialSize - 2)) = commitment)
    (e := Failure.refused (CheckError.commitment bound.system.layout.lastCell))
  rw [← Wires.checkCommitment_ofClasses] at final
  have constraints : bound.checkConstraints (.ofClasses bound.system.layout V) = .ok () ∨ ∃ i,
      bound.checkConstraints (.ofClasses bound.system.layout V)
        = .error (.refused (.constraint i)) := by
    rw [checkConstraints_ofClasses power fits]
    exact forM_require_cases
  rw [checkSeparately]
  rcases gates.symm with ⟨i, gate⟩ | multiply
  · exact Or.inr ⟨.gate _, by simp, by rw [gate, error_bind]⟩
  rcases final.symm with final | opened
  · exact Or.inr ⟨.commitment _, by simp, by rw [multiply, ok_bind, final, error_bind]⟩
  rw [multiply, ok_bind, opened, ok_bind]
  rcases constraints with hold | ⟨i, constraint⟩
  · exact Or.inl hold
  · exact Or.inr ⟨.constraint i, by simp, constraint⟩

theorem BoundSystem.check_eq_checkSeparately (pads : ℕ) (z : ZMod q) :
    bound.check (.ofClasses bound.system.layout V) commitment (.ofClass bound.system G pads z)
      = bound.checkSeparately (.ofClasses bound.system.layout V) commitment := by
  rw [check, checkSeparately]
  cases gates : (Wires.ofClasses bound.system.layout V).checkGates with
  | error failure => rfl
  | ok u =>
    rw [ok_bind, ok_bind]
    cases (Wires.ofClasses bound.system.layout V).checkCommitment commitment with
    | error failure => rfl
    | ok u =>
      rw [ok_bind, ok_bind]
      cases constraints : bound.checkConstraints (.ofClasses bound.system.layout V) with
      | error failure => rfl
      | ok u => exact Aggregation.check_ofClass_eq_ok power fits gates constraints pads z

end

/-- The check of a circuit, its wires overwritten with any residues of the field, answers or refuses
    the same for all challenges of the field but zero, and never blames the folded equation. Under
    the binding to any serial number, the folded equation holds for all those challenges once the
    gates and the constraints do. -/
theorem check_same_verdict {p₀ p : Parameters} {system : LinearSystem}
    (built : LinearSystem.ofParameters p₀ = .ok system) {w : Witness} {circuit : Circuit}
    (made : Circuit.ofWitness p system w = .ok circuit) {changes : List Overwrite}
    (ofField : ∀ change ∈ changes, p.field.Contains change.value) :
    let wires := circuit.wires.overwriteAll changes
    (∀ y₁ y₂ : Residue, p.field.Contains y₁ → y₁.value ≠ 0 → p.field.Contains y₂ → y₂.value ≠ 0 →
      ∃ aggregation₁ aggregation₂ verdict,
        Circuit.aggregate { circuit with wires } y₁ = .ok aggregation₁ ∧
        Circuit.aggregate { circuit with wires } y₂ = .ok aggregation₂ ∧
        Circuit.check { circuit with wires } aggregation₁ = verdict ∧
        Circuit.check { circuit with wires } aggregation₂ = verdict ∧
        (verdict = .ok () ∨
          ∃ error : CheckError, error ≠ .aggregation ∧ verdict = .error (.refused error))) ∧
    (∀ serial : Residue, wires.checkGates = .ok () →
      (system.bind serial).checkConstraints wires = .ok () →
      ∀ y : Residue, p.field.Contains y → y.value ≠ 0 →
      ∀ pads, system.layout.columns + pads < Count.limit →
        ∃ aggregation, Aggregation.ofChallenge y (system.bind serial) pads = .ok aggregation ∧
          aggregation.check wires = .ok ()) := by
  obtain ⟨layout, commitment, V₀, accepted, rfl, rfl⟩ :=
    Circuit.exists_classes_of_ofWitness built made
  obtain ⟨V, overwritten⟩ := Wires.exists_classes_overwriteAll layout V₀ ofField
  have fits := LinearSystem.fits_onLayout p layout
  intro wires
  have classes : wires = .ofClasses layout V := overwritten
  rw [classes]
  refine ⟨?_, ?_⟩
  · intro y₁ y₂ contained₁ nonzero₁ contained₂ nonzero₂
    have power := LinearSystem.serialPower_bind p layout w.serial
    refine ⟨_, _, _, Circuit.aggregate_eq_ok accepted contained₁ nonzero₁,
      Circuit.aggregate_eq_ok accepted contained₂ nonzero₂, ?_, ?_,
      BoundSystem.checkSeparately_cases power fits V commitment⟩
    · exact BoundSystem.check_eq_checkSeparately power fits V commitment _ _
    · exact BoundSystem.check_eq_checkSeparately power fits V commitment _ _
  · intro serial gates constraints y contained nonzero pads padded
    have power := LinearSystem.serialPower_bind p layout serial
    have unit : y.toZMod p.field.modulus ≠ 0 := mt (toZMod_eq_zero_iff contained).mp nonzero
    have made := Aggregation.ofChallenge_eq_ok power fits padded unit
    rw [ofZMod_toZMod contained] at made
    exact ⟨_, made, Aggregation.check_ofClass_eq_ok power fits gates constraints _ _⟩

/-- A gate that is not in use gets another factor, and a value for a missing cell is refused: two
    challenges agree on what is left, and the folded equation holds for a third one. -/
theorem check_same_verdict_seven :
    let field := Parameters.seven.field
    let changes : List Overwrite := [⟨.a, ⟨1, 2⟩, field.residue 4⟩, ⟨.b, ⟨5, 0⟩, field.residue 1⟩]
    ∃ circuit, Circuit.ofWitness .seven (.onLayout .seven .seven)
        ⟨field.residue 2, field.residue 1, fun _ => true⟩ = .ok circuit ∧
      (∃ aggregation₁ aggregation₂,
        Circuit.aggregate { circuit with wires := circuit.wires.overwriteAll changes }
          (field.residue 4) = .ok aggregation₁ ∧
        Circuit.aggregate { circuit with wires := circuit.wires.overwriteAll changes }
          (field.residue 3) = .ok aggregation₂ ∧
        Circuit.check { circuit with wires := circuit.wires.overwriteAll changes } aggregation₁
          = Circuit.check { circuit with wires := circuit.wires.overwriteAll changes }
            aggregation₂) ∧
      ∃ aggregation, Aggregation.ofChallenge (field.residue 5)
          ((LinearSystem.onLayout .seven .seven).bind (field.residue 2)) 9 = .ok aggregation ∧
        aggregation.check (circuit.wires.overwriteAll changes) = .ok () := by
  intro field changes
  have accepted : Layout.ofShape Parameters.seven.shape = .ok .seven := by decide
  have narrow : bitLength (field.residue 1).value ≤ 3 := by decide
  have made : Circuit.ofWitness .seven (.onLayout .seven .seven)
      ⟨field.residue 2, field.residue 1, fun _ => true⟩ = .ok _ :=
    Circuit.ofWitness_eq_ok accepted narrow
  have ofField : ∀ change ∈ changes, Parameters.seven.field.Contains change.value := by decide
  obtain ⟨same, folded⟩ := check_same_verdict ofParameters_seven made ofField
  refine ⟨_, made, ?_, ?_⟩
  · obtain ⟨aggregation₁, aggregation₂, verdict, made₁, made₂, verdict₁, verdict₂, -⟩ :=
      same (field.residue 4) (field.residue 3) rfl (by decide) rfl (by decide)
    exact ⟨aggregation₁, aggregation₂, made₁, made₂, verdict₁.trans verdict₂.symm⟩
  · exact folded (field.residue 2) (by decide +kernel) (by decide +kernel) (field.residue 5) rfl
      (by decide) 9 (by decide)

end CoinSpend
