import CoinSpend.Proofs.PassingWires

/-!
# Changes of a single wire

In a circuit whose wires pass all checks, no single wire in use can be changed unnoticed: the
change is reported where it was made, by the gate if the gate depends on the wire, and otherwise by
the constraint that ties the two factors of a bit together.
-/

namespace CoinSpend

open Residue

/-- Whether the product of a gate depends on the value of a wire. -/
def Triple.DependsOn (gate : Triple Residue) : Wire → Prop
  | .a => gate.b.value ≠ 0
  | .b => gate.a.value ≠ 0
  | .c => True

instance (gate : Triple Residue) (wire : Wire) : Decidable (gate.DependsOn wire) :=
  match wire with
  | .a => inferInstanceAs (Decidable (_ ≠ _))
  | .b => inferInstanceAs (Decidable (_ ≠ _))
  | .c => inferInstanceAs (Decidable True)

section

variable {q : ℕ}

/-- What the residual of a gate changes by for one unit on a wire. -/
def slope (V : Wire → ℕ → ZMod q) (wire : Wire) (i : ℕ) : ZMod q :=
  match wire with
  | .a => V .b i
  | .b => V .a i
  | .c => -1

theorem gateResidual_setClass (V : Wire → ℕ → ZMod q) (wire : Wire) (i : ℕ) (d : ZMod q) :
    gateResidual (setClass V wire i (V wire i + d)) i = gateResidual V i + slope V wire i * d := by
  have other (wire' : Wire) (ne : wire' ≠ wire) :
      setClass V wire i (V wire i + d) wire' i = V wire' i :=
    setClass_of_wire_ne V ne i _ i
  cases wire with
  | a =>
    rw [gateResidual, setClass_same, other .b (by decide), other .c (by decide)]
    simp only [gateResidual, slope]
    ring
  | b =>
    rw [gateResidual, setClass_same, other .a (by decide), other .c (by decide)]
    simp only [gateResidual, slope]
    ring
  | c =>
    rw [gateResidual, setClass_same, other .a (by decide), other .b (by decide)]
    simp only [gateResidual, slope]
    ring

theorem dependsOn_classTriple_iff [Fact q.Prime] (V : Wire → ℕ → ZMod q) (wire : Wire) (i : ℕ) :
    (classTriple fun wire => V wire i).DependsOn wire ↔ slope V wire i ≠ 0 := by
  have factor (z : ZMod q) : (ofZMod z).value ≠ 0 ↔ z ≠ 0 := not_congr (ZMod.val_eq_zero z)
  cases wire with
  | a => exact factor (V .b i)
  | b => exact factor (V .a i)
  | c => exact iff_of_true trivial (neg_ne_zero.mpr one_ne_zero)

theorem ne_c_of_slope_eq_zero [Fact q.Prime] {V : Wire → ℕ → ZMod q} {wire : Wire} {i : ℕ}
    (independent : slope V wire i = 0) : wire ≠ .c := by
  rintro rfl
  exact neg_ne_zero.mpr one_ne_zero independent

variable {size : ℕ} {h G : ZMod q} {V : Wire → ℕ → ZMod q}

theorem LinearRelations.slope_step_ne_zero [Fact q.Prime] (relations : LinearRelations size h G V)
    (long : 3 ≤ size) (gates : ∀ i < 2 * size - 1, gateResidual V i = 0) (unit : h ≠ 0)
    (unit' : G ≠ 0) (wire : Wire) {i : ℕ} (step : size ≤ i) (below : i < 2 * size - 1) :
    slope V wire i ≠ 0 := by
  obtain ⟨left, right⟩ := relations.step_ne_zero long gates unit unit' step below
  cases wire with
  | a => exact right
  | b => exact left
  | c => exact neg_ne_zero.mpr one_ne_zero

end

section

variable {p : Parameters} {layout : Layout} {serial commitment : Residue} {pads : ℕ}
  {V : Wire → ℕ → ZMod p.field.modulus} {wire : Wire} {i : ℕ} {d z : ZMod p.field.modulus}

theorem check_of_slope_ne_zero [Fact p.field.modulus.Prime]
    (gates : ∀ i < layout.rows * layout.columns, gateResidual V i = 0)
    (below : i < layout.rows * layout.columns) (dependent : slope V wire i ≠ 0) (nonzero : d ≠ 0) :
    (Circuit.onLayout p layout serial commitment
          (.ofClasses layout (setClass V wire i (V wire i + d)))).check
        (.ofClass (.onLayout p layout) (p.gClass ^ serial.value) pads z)
      = .error (.refused (.gate (layout.cell i))) := by
  have fails : gateResidual (setClass V wire i (V wire i + d)) i ≠ 0 := by
    rw [gateResidual_setClass, gates i below, zero_add]
    exact mul_ne_zero dependent nonzero
  have first (j : ℕ) (before : j < i) :
      gateResidual (setClass V wire i (V wire i + d)) j = 0 := by
    rw [gateResidual_setClass_of_ne V wire (Nat.ne_of_lt before)]
    exact gates j (Nat.lt_trans before below)
  have caught : (Wires.ofClasses layout (setClass V wire i (V wire i + d))).checkGates
      = .error (.refused (.gate (layout.cell i))) :=
    (Wires.checkGates_ofClasses _).trans (forM_require_eq_error below first fails)
  simp only [Circuit.check, Circuit.onLayout, BoundSystem.check, caught, error_bind]

/-- The gates do not see a change where the product does not depend on the wire. -/
theorem gateResidual_of_slope_eq_zero
    (gates : ∀ i < layout.rows * layout.columns, gateResidual V i = 0)
    (independent : slope V wire i = 0) :
    ∀ j < layout.rows * layout.columns,
      gateResidual (setClass V wire i (V wire i + d)) j = 0 := by
  intro j below
  by_cases here : j = i
  · subst here
    rw [gateResidual_setClass, gates j below, independent, zero_mul, add_zero]
  · rw [gateResidual_setClass_of_ne V wire here]
    exact gates j below

/-- A change of one factor of a bit breaks the constraint that ties it to the other. -/
theorem residual_complement_setClass_ne_zero (factor : wire ≠ .c) (bit : i < layout.serialSize)
    (G : ZMod p.field.modulus) (zero : V .a i - V .b i - 1 = 0) (nonzero : d ≠ 0) :
    (LinearSystem.onLayout p layout).residual G (setClass V wire i (V wire i + d)) i ≠ 0 := by
  rw [LinearSystem.residual_complement _ _ bit]
  cases wire with
  | a =>
    rw [setClass_same, setClass_of_wire_ne V (by decide)]
    intro off
    apply nonzero
    linear_combination off - zero
  | b =>
    rw [setClass_same, setClass_of_wire_ne V (by decide)]
    intro off
    apply nonzero
    linear_combination zero - off
  | c => exact absurd rfl factor

theorem check_of_bit [Fact p.field.modulus.Prime]
    (gates : ∀ i < layout.rows * layout.columns, gateResidual V i = 0)
    (opened : ofZMod (V .c (2 * layout.serialSize - 2)) = commitment)
    (relations : LinearRelations layout.serialSize p.hClass (p.gClass ^ serial.value) V)
    (bit : i < layout.serialSize) (independent : slope V wire i = 0) (nonzero : d ≠ 0) :
    (Circuit.onLayout p layout serial commitment
          (.ofClasses layout (setClass V wire i (V wire i + d)))).check
        (.ofClass (.onLayout p layout) (p.gClass ^ serial.value) pads z)
      = .error (.refused (.constraint i)) := by
  have factor := ne_c_of_slope_eq_zero independent
  have used := layout.usedCount_le
  unfold Layout.usedCount at used
  have long := layout.three_le_serialSize
  have multiply : (Wires.ofClasses layout (setClass V wire i (V wire i + d))).checkGates = .ok () :=
    (Wires.checkGates_ofClasses _).trans
      (forM_require_eq_ok_iff.mpr (gateResidual_of_slope_eq_zero gates independent))
  have final : (Wires.ofClasses layout (setClass V wire i (V wire i + d))).checkCommitment
      commitment = .ok () := by
    rw [Wires.checkCommitment_ofClasses, require_eq_ok_iff, setClass_of_wire_ne V factor.symm]
    exact opened
  -- The constraints before number `i` tie the factors of other bits together.
  have first (j : ℕ) (before : j < i) : (LinearSystem.onLayout p layout).residual
      (p.gClass ^ serial.value) (setClass V wire i (V wire i + d)) j = 0 := by
    rw [LinearSystem.residual_complement _ _ (Nat.lt_trans before bit),
      setClass_of_ne V wire (Nat.ne_of_lt before), setClass_of_ne V wire (Nat.ne_of_lt before)]
    exact relations.complement j (Nat.lt_trans before bit)
  have fails := residual_complement_setClass_ne_zero factor bit (p.gClass ^ serial.value)
    (relations.complement i bit) nonzero
  have checked : i < layout.checkedCount := by
    unfold Layout.checkedCount
    omega
  have caught : ((LinearSystem.onLayout p layout).bind serial).checkConstraints
      (Wires.ofClasses layout (setClass V wire i (V wire i + d)))
      = .error (.refused (.constraint i)) :=
    (BoundSystem.checkConstraints_ofClasses (LinearSystem.serialPower_bind p layout serial)
      (LinearSystem.fits_onLayout p layout) _).trans (forM_require_eq_error checked first fails)
  simp only [Circuit.check, Circuit.onLayout, BoundSystem.check, multiply, final, caught, ok_bind,
    error_bind]

/-- Nothing depends on a factor that is multiplied by zero in a gate that is not in use. -/
theorem check_of_unused [Fact p.field.modulus.Prime]
    (gates : ∀ i < layout.rows * layout.columns, gateResidual V i = 0)
    (opened : ofZMod (V .c (2 * layout.serialSize - 2)) = commitment)
    (relations : LinearRelations layout.serialSize p.hClass (p.gClass ^ serial.value) V)
    (unused : 2 * layout.serialSize - 1 ≤ i) (independent : slope V wire i = 0) :
    (Circuit.onLayout p layout serial commitment
          (.ofClasses layout (setClass V wire i (V wire i + d)))).check
        (.ofClass (.onLayout p layout) (p.gClass ^ serial.value) pads z)
      = .ok () := by
  have long := layout.three_le_serialSize
  have same (wire' : Wire) (j : ℕ) (below : j < 2 * layout.serialSize - 1) :
      setClass V wire i (V wire i + d) wire' j = V wire' j :=
    setClass_of_ne V wire (by omega) _ wire'
  rw [Circuit.check_of_relations (gateResidual_of_slope_eq_zero gates independent)
    (relations.of_agree long same), require_eq_ok_iff, same .c _ (by omega)]
  exact opened

end

/-- In a circuit whose wires pass all checks, a change of a single wire is reported by the gate if
    its product depends on the wire, and else by the constraint with the number of the cell if the
    cell is in use, which is then the cell of a bit. Only in a gate that is not in use the change of
    a factor goes unnoticed. -/
theorem check_set_eq {p₀ p : Parameters} (prime : p.field.modulus.Prime) {system : LinearSystem}
    (built : LinearSystem.ofParameters p₀ = .ok system) {w : Witness} {circuit : Circuit}
    (made : Circuit.ofWitness p system w = .ok circuit) {wires : Wires}
    (sameLayout : wires.layout = circuit.wires.layout) {y : Residue} {aggregation : Aggregation}
    (folded : Circuit.aggregate { circuit with wires } y = .ok aggregation)
    (passed : Circuit.check { circuit with wires } aggregation = .ok ())
    {y' : Residue} (contained : p.field.Contains y') (nonzero : y'.value ≠ 0) :
    ∃ aggregation', Circuit.aggregate { circuit with wires } y' = .ok aggregation' ∧
      ∀ wire : Wire, ∀ cell : Cell, cell.Inside wires.layout.rows wires.layout.columns →
      ∀ delta : Residue, p.field.Contains delta → delta.value ≠ 0 →
        ∃ gate sum changed, wires.gates.get? cell = some gate ∧
          (gate.on wire).add delta = .ok sum ∧ wires.set wire cell sum = .ok changed ∧
          (¬gate.DependsOn wire →
            cell.position wires.layout.columns < 2 * wires.layout.serialSize - 1 →
            cell.position wires.layout.columns < wires.layout.serialSize) ∧
          Circuit.check { circuit with wires := changed } aggregation'
            = if gate.DependsOn wire then .error (.refused (.gate cell))
              else if cell.position wires.layout.columns < 2 * wires.layout.serialSize - 1 then
                .error (.refused (.constraint (cell.position wires.layout.columns)))
              else .ok () := by
  have : Fact p.field.modulus.Prime := ⟨prime⟩
  obtain ⟨layout, commitment, assigned, accepted, rfl, assignedLayout⟩ :=
    Circuit.eq_onLayout_of_ofWitness built made
  have sameLayout : wires.layout = layout := sameLayout.trans assignedLayout
  obtain ⟨-, -, rfl⟩ := (Circuit.aggregate_eq_ok_iff accepted).mp folded
  have passes : (Circuit.onLayout p layout w.serial commitment wires).check
      (.ofClass (.onLayout p layout) (p.gClass ^ w.serial.value) p.shape.pads.toNat
        (y.toZMod p.field.modulus)) = .ok () := passed
  obtain ⟨V, rfl, gates, opened, relations⟩ := Circuit.exists_classes_of_check sameLayout passes
  refine ⟨_, Circuit.aggregate_eq_ok accepted contained nonzero, ?_⟩
  intro wire cell inside delta deltaIn deltaNonzero
  obtain ⟨d, rfl⟩ : ∃ d : ZMod p.field.modulus, delta = ofZMod d :=
    ⟨_, (ofZMod_toZMod deltaIn).symm⟩
  have change : d ≠ 0 := fun zero => deltaNonzero ((ZMod.val_eq_zero d).mpr zero)
  have below := Cell.position_lt inside
  have used {i : ℕ} (inUse : i < 2 * layout.serialSize - 1) : gateResidual V i = 0 :=
    gates i (Nat.lt_of_lt_of_le inUse layout.usedCount_le)
  have ofBit (independent : slope V wire (cell.position layout.columns) = 0)
      (inUse : cell.position layout.columns < 2 * layout.serialSize - 1) :
      cell.position layout.columns < layout.serialSize := by
    by_contra step
    exact relations.slope_step_ne_zero layout.three_le_serialSize (fun i => used) p.hClass_ne_zero
      (pow_ne_zero _ p.gClass_ne_zero) wire (Nat.le_of_not_lt step) inUse independent
  have dependsOn := dependsOn_classTriple_iff V wire (cell.position layout.columns)
  refine ⟨_, ofZMod (V wire (cell.position layout.columns) + d), _, Wires.get?_ofClasses V inside,
    ?_, Wires.set_ofClasses V wire inside _, ?_, ?_⟩
  · rw [classTriple_on]
    exact add_ofZMod _ _
  · intro independent inUse
    exact ofBit (not_not.mp (mt dependsOn.mpr independent)) inUse
  · have located : layout.cell (cell.position layout.columns) = cell :=
      Layout.cell_position inside
    by_cases dependent : slope V wire (cell.position layout.columns) = 0
    · rw [if_neg (mt dependsOn.mp (not_not_intro dependent))]
      by_cases inUse : cell.position layout.columns < 2 * layout.serialSize - 1
      · exact (check_of_bit gates opened relations (ofBit dependent inUse) dependent change).trans
          (if_pos inUse).symm
      · exact (check_of_unused gates opened relations (Nat.le_of_not_lt inUse) dependent).trans
          (if_neg inUse).symm
    · rw [if_pos (dependsOn.mpr dependent)]
      refine (check_of_slope_ne_zero gates below dependent change).trans ?_
      rw [Wires.layout_ofClasses, located]

/-- The circuit for three set bits and the serial number two. -/
def Circuit.seven : Circuit :=
  .onLayout .seven .seven (Parameters.seven.field.residue 2)
    (ofZMod (Parameters.seven.gClass ^ 2 * Parameters.seven.hClass ^ 1))
    (.ofClasses .seven honestSeven)

/-- With all three bits set, a two in place of the first factor of a bit passes the gate, and the
    constraint of the bit reports it. -/
theorem check_set_eq_seven :
    ∃ aggregation changed,
      Circuit.ofWitness .seven (.onLayout .seven .seven)
        ⟨Parameters.seven.field.residue 2, Parameters.seven.field.residue 1, fun _ => true⟩
          = .ok .seven ∧
      Circuit.seven.aggregate (Parameters.seven.field.residue 4) = .ok aggregation ∧
      Circuit.seven.check aggregation = .ok () ∧
      Circuit.seven.wires.set .a ⟨0, 1⟩ (Parameters.seven.field.residue 2) = .ok changed ∧
      Circuit.check { Circuit.seven with wires := changed } aggregation
        = .error (.refused (.constraint 1)) := by
  have prime : Nat.Prime Parameters.seven.field.modulus := Nat.prime_seven
  have accepted : Layout.ofShape Parameters.seven.shape = .ok .seven := by decide
  have contained : Parameters.seven.field.Contains (Parameters.seven.field.residue 4) := rfl
  have nonzero : (Parameters.seven.field.residue 4).value ≠ 0 := by decide
  have narrow : bitLength (Parameters.seven.field.residue 1).value ≤ 3 := by decide
  have made : Circuit.ofWitness .seven (.onLayout .seven .seven)
      ⟨Parameters.seven.field.residue 2, Parameters.seven.field.residue 1, fun _ => true⟩
        = .ok .seven := Circuit.ofWitness_eq_ok accepted narrow
  have folded : Circuit.seven.aggregate (Parameters.seven.field.residue 4)
      = .ok (.ofClass (.onLayout .seven .seven) (Parameters.seven.gClass ^ 2) 1 4) :=
    Circuit.aggregate_eq_ok accepted contained nonzero
  have opened : ofZMod (honestSeven .c (2 * 3 - 2))
      = ofZMod (Parameters.seven.gClass ^ 2 * Parameters.seven.hClass ^ 1) := by
    decide
  have passed : Circuit.seven.check
      (.ofClass (.onLayout .seven .seven) (Parameters.seven.gClass ^ 2) 1 4) = .ok () :=
    (Circuit.check_of_relations (fun i _ => gateResidual_honest i)
      (linearRelations_honest (Nat.le_refl 3)) 1 4).trans (require_eq_ok_iff.mpr opened)
  obtain ⟨aggregation, folded', diagnosed⟩ :=
    check_set_eq prime ofParameters_seven made rfl folded passed contained nonzero
  obtain rfl := Except.ok.inj (folded.symm.trans folded')
  obtain ⟨gate, sum, changed, present, added, written, -, verdict⟩ :=
    diagnosed .a ⟨0, 1⟩ ⟨by decide, by decide⟩ (Parameters.seven.field.residue 1) rfl (by decide)
  obtain rfl : classTriple (fun wire => honestSeven wire 1) = gate :=
    Option.some.inj ((Wires.get?_ofClasses honestSeven ⟨by decide, by decide⟩).symm.trans present)
  obtain rfl : Parameters.seven.field.residue 2 = sum :=
    Except.ok.inj ((by decide : _ = _).trans added)
  have independent : ¬(classTriple fun wire => honestSeven wire 1).DependsOn .a := by decide
  exact ⟨_, changed, made, folded, passed, written, verdict.trans (if_neg independent)⟩

end CoinSpend
