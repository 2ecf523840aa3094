import CoinSpend.Proofs.AggregatedResidual
import CoinSpend.Proofs.LinearRelations
import CoinSpend.Circuit

/-!
# The circuit of a parameter set

What the circuit of a witness is made of, how its relations are folded by a challenge, and how the
four checks answer on its wires.
-/

namespace CoinSpend

open Residue

namespace LinearSystem

variable {p p₀ : Parameters} {layout : Layout}

/-- The generators carry the modulus, so that a system matches no other parameters than those it
    was built for. -/
theorem matches_onLayout_iff : (onLayout p₀ layout).Matches p ↔ p = p₀ := by
  constructor
  · rintro ⟨shape, g, h⟩
    have modulus : p₀.field.modulus = p.field.modulus := by
      have contained : p₀.g.modulus = p₀.field.modulus := p₀.isGenerator_g.1
      have contained' : p.g.modulus = p.field.modulus := p.isGenerator_g.1
      have same : p₀.g.modulus = p.g.modulus := congrArg Residue.modulus g
      exact contained.symm.trans (same.trans contained')
    -- All other fields are compared, and proofs of one property are equal.
    obtain ⟨⟨q, _, _⟩, _, _, _, _, _, _⟩ := p
    obtain ⟨⟨q₀, _, _⟩, _, _, _, _, _, _⟩ := p₀
    cases modulus
    cases shape
    cases g
    cases h
    rfl
  · rintro rfl
    exact ⟨rfl, rfl, rfl⟩

end LinearSystem

namespace Circuit

/-- The circuit with the given wires on a layout. -/
def onLayout (p : Parameters) (layout : Layout) (serial commitment : Residue) (wires : Wires) :
    Circuit :=
  ⟨p, (LinearSystem.onLayout p layout).bind serial, wires, serial, commitment⟩

variable {p p₀ : Parameters} {layout : Layout} {w : Witness}

theorem ofWitness_mismatch (other : p ≠ p₀) :
    ofWitness p (.onLayout p₀ layout) w = .error (.refused .parameterMismatch) := by
  have mismatch : ¬(LinearSystem.onLayout p₀ layout).Matches p :=
    fun same => other (LinearSystem.matches_onLayout_iff.mp same)
  rw [ofWitness, if_pos mismatch]
  rfl

theorem ofWitness_too_wide (accepted : Layout.ofShape p.shape = .ok layout)
    (wide : layout.serialSize < bitLength w.randomness.value) :
    ofWitness p (.onLayout p layout) w
      = .error (.refused (.wires (.tooWide (bitLength w.randomness.value) layout.serialSize))) := by
  have matched : (LinearSystem.onLayout p layout).Matches p :=
    LinearSystem.matches_onLayout_iff.mpr rfl
  rw [ofWitness, if_neg (not_not_intro matched), Wires.assign_too_wide accepted wide]
  rfl

theorem ofWitness_eq_ok (accepted : Layout.ofShape p.shape = .ok layout)
    (narrow : bitLength w.randomness.value ≤ layout.serialSize) :
    ofWitness p (.onLayout p layout) w
      = .ok (onLayout p layout w.serial
          (ofZMod (p.gClass ^ w.serial.value * p.hClass ^ w.randomness.value))
          (Wires.ofClasses layout
            (honest layout.serialSize p.hClass (p.gClass ^ w.serial.value) w.bit))) := by
  have matched : (LinearSystem.onLayout p layout).Matches p :=
    LinearSystem.matches_onLayout_iff.mpr rfl
  rw [ofWitness, if_neg (not_not_intro matched), Wires.assign_eq_ok accepted narrow,
    p.commit_eq_ok]
  rfl

/-- The circuits that are made are those on the layout of the parameters, with wires of the
    field. -/
theorem exists_classes_of_ofWitness {system : LinearSystem} {circuit : Circuit}
    (built : LinearSystem.ofParameters p₀ = .ok system)
    (made : ofWitness p system w = .ok circuit) :
    ∃ layout commitment, ∃ V : Wire → ℕ → ZMod p.field.modulus,
      Layout.ofShape p.shape = .ok layout ∧ system = .onLayout p layout ∧
      circuit = onLayout p layout w.serial commitment (.ofClasses layout V) := by
  obtain ⟨layout, accepted, rfl⟩ := LinearSystem.ofParameters_eq_ok_iff.mp built
  by_cases same : p = p₀
  swap
  · rw [ofWitness_mismatch same] at made
    cases made
  subst same
  rcases Nat.lt_or_ge layout.serialSize (bitLength w.randomness.value) with wide | narrow
  · rw [ofWitness_too_wide accepted wide] at made
    cases made
  · rw [ofWitness_eq_ok accepted narrow] at made
    exact ⟨layout, _, _, accepted, rfl, (Except.ok.inj made).symm⟩

theorem eq_onLayout_of_ofWitness {system : LinearSystem} {circuit : Circuit}
    (built : LinearSystem.ofParameters p₀ = .ok system)
    (made : ofWitness p system w = .ok circuit) :
    ∃ layout commitment wires, Layout.ofShape p.shape = .ok layout ∧
      circuit = onLayout p layout w.serial commitment wires ∧ wires.layout = layout := by
  obtain ⟨layout, commitment, V, accepted, -, circuit⟩ := exists_classes_of_ofWitness built made
  exact ⟨layout, commitment, _, accepted, circuit, Wires.layout_ofClasses V⟩

variable {serial commitment : Residue} {wires : Wires} {y : Residue}

theorem aggregate_foreign (foreign : ¬p.field.Contains y) :
    (onLayout p layout serial commitment wires).aggregate y = .error (.refused .foreign) := by
  rw [aggregate, onLayout, if_pos foreign]
  rfl

theorem aggregate_zero (accepted : Layout.ofShape p.shape = .ok layout)
    (contained : p.field.Contains y) (zero : y.value = 0) :
    (onLayout p layout serial commitment wires).aggregate y = .error (.refused .degenerate) := by
  have padded := (Layout.describes_of_ofShape accepted).padded_lt_limit
  have power := LinearSystem.serialPower_bind p layout serial
  have zeroClass : y = ofZMod (0 : ZMod p.field.modulus) :=
    eq_ofZMod_iff.mpr ⟨contained, (toZMod_eq_zero_iff contained).mpr zero⟩
  rw [aggregate, onLayout, if_neg (not_not_intro contained), zeroClass]
  exact Aggregation.ofChallenge_zero power padded

/-- The aggregation of the circuit for a challenge other than zero. -/
theorem aggregate_eq_ok (accepted : Layout.ofShape p.shape = .ok layout)
    (contained : p.field.Contains y) (nonzero : y.value ≠ 0) :
    (onLayout p layout serial commitment wires).aggregate y
      = .ok (.ofClass (.onLayout p layout) (p.gClass ^ serial.value) p.shape.pads.toNat
          (y.toZMod p.field.modulus)) := by
  have padded := (Layout.describes_of_ofShape accepted).padded_lt_limit
  have power := LinearSystem.serialPower_bind p layout serial
  have fits := LinearSystem.fits_onLayout p layout
  rw [aggregate, onLayout, if_neg (not_not_intro contained)]
  conv_lhs => rw [← ofZMod_toZMod contained]
  exact Aggregation.ofChallenge_eq_ok power fits padded
    (mt (toZMod_eq_zero_iff contained).mp nonzero)

theorem aggregate_eq_ok_iff (accepted : Layout.ofShape p.shape = .ok layout)
    {aggregation : Aggregation} :
    (onLayout p layout serial commitment wires).aggregate y = .ok aggregation
      ↔ p.field.Contains y ∧ y.value ≠ 0 ∧
        aggregation = .ofClass (.onLayout p layout) (p.gClass ^ serial.value) p.shape.pads.toNat
          (y.toZMod p.field.modulus) := by
  by_cases contained : p.field.Contains y
  swap
  · simp [aggregate_foreign contained, contained]
  by_cases zero : y.value = 0
  · simp [aggregate_zero accepted contained zero, zero]
  · simp [aggregate_eq_ok accepted contained zero, contained, zero, eq_comm]

/-- Wires that satisfy the gates and the relations can only fail to open the commitment. -/
theorem check_of_relations {V : Wire → ℕ → ZMod p.field.modulus}
    (gates : ∀ i < layout.rows * layout.columns, gateResidual V i = 0)
    (relations : LinearRelations layout.serialSize p.hClass (p.gClass ^ serial.value) V) (pads : ℕ)
    (z : ZMod p.field.modulus) :
    (onLayout p layout serial commitment (.ofClasses layout V)).check
        (.ofClass (.onLayout p layout) (p.gClass ^ serial.value) pads z)
      = require (ofZMod (V .c (2 * layout.serialSize - 2)) = commitment)
          (.refused (.commitment layout.lastCell)) := by
  have power := LinearSystem.serialPower_bind p layout serial
  have fits := LinearSystem.fits_onLayout p layout
  have multiply : (Wires.ofClasses layout V).checkGates = .ok () := by
    rw [Wires.checkGates_ofClasses]
    exact forM_require_eq_ok_iff.mpr gates
  have linear : ((LinearSystem.onLayout p layout).bind serial).checkConstraints
      (Wires.ofClasses layout V) = .ok () :=
    (BoundSystem.checkConstraints_ofClasses power fits V).trans
      (forM_require_eq_ok_iff.mpr (LinearSystem.residuals_eq_zero_iff.mpr relations))
  have folded : (Aggregation.ofClass (.onLayout p layout) (p.gClass ^ serial.value) pads z).check
      (Wires.ofClasses layout V) = .ok () :=
    Aggregation.check_ofClass_eq_ok power fits multiply linear pads z
  simp only [check, onLayout, BoundSystem.check, multiply, linear, folded, ok_bind,
    Wires.checkCommitment_ofClasses]
  exact bind_pure _

end Circuit

end CoinSpend
