import CoinSpend.Proofs.FoldedEquivalence

/-!
# Binding to a serial number

Only the last checked constraint, the last link of the chain of products, depends on the serial
number that a system is bound to. Wires that pass for one serial number therefore pass for another
one exactly if both select the same power of the first generator; if not, that one constraint is
violated, and under no challenge does the folded equation hide it.
-/

namespace CoinSpend

open Residue

/-! ## The last link -/

namespace LinearSystem

variable {p : Parameters} {layout : Layout} {G G' : ZMod p.field.modulus}
  {V : Wire → ℕ → ZMod p.field.modulus} {i : ℕ}

/-- No other checked constraint depends on the serial number. -/
theorem residual_of_ne_lastLink (below : i < layout.checkedCount) (other : i ≠ layout.lastLink) :
    (onLayout p layout).residual G V i = (onLayout p layout).residual G' V i := by
  revert other
  revert i
  apply Layout.forall_checked
  case complement =>
    intro k below _
    rw [residual_complement G V below, residual_complement G' V below]
  case product =>
    intro k below _
    rw [residual_product G V below, residual_product G' V below]
  case recurrence =>
    intro k below _
    rw [residual_recurrence G V below, residual_recurrence G' V below]
  case anchor =>
    intro _
    rw [residual_anchor G V, residual_anchor G' V]
  case chain =>
    intro k below other
    have inner : k + 1 ≠ layout.lastStep := by
      unfold Layout.lastLink at other
      rw [ne_eq, layout.succ_eq_lastStep_iff]
      omega
    rw [residual_chain G V below, residual_chain G' V below, if_neg inner, if_neg inner]

theorem residual_lastLink (G : ZMod p.field.modulus) (V : Wire → ℕ → ZMod p.field.modulus) :
    (onLayout p layout).residual G V layout.lastLink
      = V .a (2 * layout.serialSize - 2) - G * V .c (2 * layout.serialSize - 3) := by
  obtain ⟨k, size⟩ := Nat.exists_eq_add_of_le' layout.three_le_serialSize
  have last : k + 1 = layout.lastStep := layout.succ_eq_lastStep_iff.mpr size.symm
  have link : layout.lastLink = 3 * layout.serialSize + k := by
    unfold Layout.lastLink
    omega
  rw [link, residual_chain G V (by omega), if_pos last]
  congr 2
  · omega
  · congr 1
    omega

end LinearSystem

section

variable {p : Parameters} {layout : Layout} {G G' : ZMod p.field.modulus}
  {V : Wire → ℕ → ZMod p.field.modulus}
  (relations : LinearRelations layout.serialSize p.hClass G V)

include relations

/-- All checked constraints but the last link hold for every serial power. -/
theorem residual_eq_zero_of_ne_lastLink {i : ℕ} (below : i < layout.checkedCount)
    (other : i ≠ layout.lastLink) : (LinearSystem.onLayout p layout).residual G' V i = 0 := by
  rw [LinearSystem.residual_of_ne_lastLink below other]
  exact LinearSystem.residuals_eq_zero_iff.mpr relations i below

variable [Fact p.field.modulus.Prime]
  (gates : ∀ i < layout.rows * layout.columns, gateResidual V i = 0) (unit : G ≠ 0)

include gates unit

/-- The product that the last link multiplies by the serial power is not zero, so that no wires
    hide another serial power. -/
theorem residual_lastLink_eq_zero_iff :
    (LinearSystem.onLayout p layout).residual G' V layout.lastLink = 0 ↔ G = G' := by
  have long := layout.three_le_serialSize
  have here := LinearSystem.residuals_eq_zero_iff.mpr relations _ layout.lastLink_lt
  have product : V .c (2 * layout.serialSize - 3) ≠ 0 := by
    intro zero
    have used (i : ℕ) (below : i < 2 * layout.serialSize - 1) : gateResidual V i = 0 :=
      gates i (Nat.lt_of_lt_of_le below layout.usedCount_le)
    have left := (relations.step_ne_zero long used p.hClass_ne_zero unit
      (show layout.serialSize ≤ 2 * layout.serialSize - 2 by omega) (by omega)).1
    rw [LinearSystem.residual_lastLink, zero, mul_zero, sub_zero] at here
    exact left here
  rw [LinearSystem.residual_lastLink] at here ⊢
  rw [sub_eq_zero.mp here, ← sub_mul, mul_eq_zero, or_iff_left product, sub_eq_zero]

/-- Under another serial number the constraints fail in the last link, if at all. -/
theorem checkConstraints_other_serial {serial' : Residue}
    (power' : ((LinearSystem.onLayout p layout).bind serial').serialPower = ofZMod G') :
    ((LinearSystem.onLayout p layout).bind serial').checkConstraints (.ofClasses layout V)
      = require (G = G') (.refused (.constraint layout.lastLink)) := by
  have fits := LinearSystem.fits_onLayout p layout
  refine (BoundSystem.checkConstraints_ofClasses power' fits V).trans ?_
  have last : (LinearSystem.onLayout p layout).residual G' V layout.lastLink = 0 ↔ G = G' :=
    residual_lastLink_eq_zero_iff relations gates unit
  by_cases same : G = G'
  · subst same
    rw [require_eq_ok_iff.mpr rfl]
    exact forM_require_eq_ok_iff.mpr (LinearSystem.residuals_eq_zero_iff.mpr relations)
  · rw [require_of_not same]
    refine forM_require_eq_error layout.lastLink_lt ?_ (mt last.mp same)
    intro j before
    exact residual_eq_zero_of_ne_lastLink relations (Nat.lt_trans before layout.lastLink_lt)
      (Nat.ne_of_lt before)

/-- The folded equation of another serial number fails under every challenge, if at all. -/
theorem check_folded_other_serial (pads : ℕ) {z : ZMod p.field.modulus} (nonzero : z ≠ 0) :
    (Aggregation.ofClass (.onLayout p layout) G' pads z).check (.ofClasses layout V)
      = require (G = G') (.refused .aggregation) := by
  refine (Aggregation.check_ofClass (LinearSystem.fits_onLayout p layout) V).trans ?_
  apply require_congr
  rw [aggregatedResidual_of_single gates layout.lastLink_lt
    fun i below => residual_eq_zero_of_ne_lastLink relations below]
  rw [mul_eq_zero, or_iff_left (pow_ne_zero _ nonzero)]
  exact residual_lastLink_eq_zero_iff relations gates unit

end

/-- Over a field, wires that pass the checks of the gates, the commitment and the constraints for
    one serial number pass those for another serial number if both select the same power of the
    first generator, and otherwise fail in the last checked constraint. An aggregation made for the
    other serial number accepts them in the same case, and otherwise refuses them under every
    challenge but zero. -/
theorem check_other_serial {p : Parameters} (prime : p.field.modulus.Prime)
    {system : LinearSystem} (built : LinearSystem.ofParameters p = .ok system)
    {serial commitment : Residue} {wires : Wires} (sameLayout : wires.layout = system.layout)
    (ofField : wires.Over p.field) (accepts : (system.bind serial).Accepts wires commitment)
    (serial' : Residue) {y : Residue} (contained : p.field.Contains y) (nonzero : y.value ≠ 0)
    {pads : ℕ} (padded : system.layout.columns + pads < Count.limit) :
    ∃ aggregation, Aggregation.ofChallenge y (system.bind serial') pads = .ok aggregation ∧
      (system.bind serial').check wires commitment aggregation
        = (if p.g.pow serial.value = p.g.pow serial'.value then .ok ()
          else .error (.refused (.constraint (4 * system.layout.serialSize - 3)))) ∧
      (system.bind serial).check wires commitment aggregation
        = (if p.g.pow serial.value = p.g.pow serial'.value then .ok ()
          else .error (.refused .aggregation)) := by
  have : Fact p.field.modulus.Prime := ⟨prime⟩
  obtain ⟨layout, V, -, rfl, rfl⟩ :=
    LinearSystem.exists_classes_of_built built sameLayout ofField
  obtain ⟨gates, -, relations⟩ := accepts_ofClasses.mp accepts
  have fits := LinearSystem.fits_onLayout p layout
  have power' := LinearSystem.serialPower_bind p layout serial'
  have unit : p.gClass ^ serial.value ≠ 0 := pow_ne_zero _ p.gClass_ne_zero
  have challenge : y.toZMod p.field.modulus ≠ 0 := mt (toZMod_eq_zero_iff contained).mp nonzero
  have made := Aggregation.ofChallenge_eq_ok power' fits padded challenge
  rw [ofZMod_toZMod contained] at made
  have constraints := checkConstraints_other_serial relations gates unit power'
  have folded : (Aggregation.ofClass (.onLayout p layout) (p.gClass ^ serial'.value) pads
      (y.toZMod p.field.modulus)).check (.ofClasses layout V)
      = require (p.gClass ^ serial.value = p.gClass ^ serial'.value) (.refused .aggregation) :=
    check_folded_other_serial relations gates unit pads challenge
  have samePower : p.g.pow serial.value = p.g.pow serial'.value
      ↔ p.gClass ^ serial.value = p.gClass ^ serial'.value := by
    rw [p.g_eq, pow_ofZMod, pow_ofZMod, ofZMod_inj]
  simp only [samePower]
  refine ⟨_, made, ?_, ?_⟩
  · rw [BoundSystem.check, accepts.gates, ok_bind, accepts.commitment, ok_bind, constraints]
    by_cases same : p.gClass ^ serial.value = p.gClass ^ serial'.value
    · rw [require_eq_ok_iff.mpr same, ok_bind, if_pos same]
      exact folded.trans (require_eq_ok_iff.mpr same)
    · rw [require_of_not same, error_bind, if_neg same]
      rfl
  · rw [BoundSystem.check, accepts.gates, ok_bind, accepts.commitment, ok_bind,
      accepts.constraints, ok_bind]
    exact folded

/-- The wires for the serial number two under the serial number three. -/
theorem check_other_serial_seven :
    let field := Parameters.seven.field
    let system := LinearSystem.onLayout .seven .seven
    ∃ wires : Wires, wires.Over field ∧
      (system.bind (field.residue 2)).Accepts wires (field.residue 3) ∧
      ∃ aggregation,
        Aggregation.ofChallenge (field.residue 4) (system.bind (field.residue 3)) 1
          = .ok aggregation ∧
        (system.bind (field.residue 3)).check wires (field.residue 3) aggregation
          = .error (.refused (.constraint 9)) ∧
        (system.bind (field.residue 2)).check wires (field.residue 3) aggregation
          = .error (.refused .aggregation) := by
  intro field system
  have prime : Nat.Prime Parameters.seven.field.modulus := Nat.prime_seven
  have ofField : (Wires.ofClasses Layout.seven honestSeven).Over field :=
    Wires.over_ofClasses honestSeven
  have accepts : (system.bind (field.residue 2)).Accepts (.ofClasses .seven honestSeven)
      (field.residue 3) :=
    accepts_ofClasses.mpr
      ⟨fun i _ => gateResidual_honest i, by decide, linearRelations_honest (Nat.le_refl 3)⟩
  have different : ¬Parameters.seven.g.pow (field.residue 2).value
      = Parameters.seven.g.pow (field.residue 3).value := by decide
  have contained : field.Contains (field.residue 4) := rfl
  have padded : Layout.seven.columns + 1 < Count.limit := by decide
  obtain ⟨aggregation, made, other, mixed⟩ :=
    check_other_serial prime ofParameters_seven rfl ofField accepts (field.residue 3) contained
      (by decide) padded
  exact ⟨_, ofField, accepts, aggregation, made, other.trans (if_neg different),
    mixed.trans (if_neg different)⟩

/-- The wires for the serial number two and the randomness four, but with the product of two and
    three of another field in the cell that is not in use. -/
def strangeSeven : Wires where
  layout := .seven
  gates :=
    let gate (p : Parameters) (a b c : ℕ) : Triple Residue :=
      ⟨p.field.residue a, p.field.residue b, p.field.residue c⟩
    ⟨#v[gate .seven 0 6 0, gate .seven 0 6 0, gate .seven 1 0 0,
      gate .seven 1 1 1, gate .seven 2 2 4, gate .seventeen 2 3 6]⟩

/-- Wires that pass the checks of the gates, the commitment and the constraints need not be residues
    of the field: no constraint has a term on a cell that is not in use, and the gate there is one
    of a field of its own. The fold multiplies it with a power of the challenge, and faults even for
    the serial number that the wires pass for. -/
theorem not_all_accepted_bound :
    ¬∀ p : Parameters, p.field.modulus.Prime →
      ∀ system, LinearSystem.ofParameters p = .ok system →
      ∀ (serial commitment : Residue) (wires : Wires), wires.layout = system.layout →
      (system.bind serial).Accepts wires commitment →
      ∀ serial' y : Residue, p.field.Contains y → y.value ≠ 0 →
      ∀ pads, system.layout.columns + pads < Count.limit →
      ∃ aggregation, Aggregation.ofChallenge y (system.bind serial') pads = .ok aggregation ∧
        (system.bind serial').check wires commitment aggregation
          = (if p.g.pow serial.value = p.g.pow serial'.value then .ok ()
            else .error (.refused (.constraint (4 * system.layout.serialSize - 3)))) ∧
        (system.bind serial).check wires commitment aggregation
          = (if p.g.pow serial.value = p.g.pow serial'.value then .ok ()
            else .error (.refused .aggregation)) := by
  intro all
  let field := Parameters.seven.field
  let bound := (LinearSystem.onLayout .seven .seven).bind (field.residue 2)
  have accepts : bound.Accepts strangeSeven (field.residue 4) :=
    ⟨by decide +kernel, by decide +kernel, by decide +kernel⟩
  have faults : (Aggregation.ofChallenge field.one bound 1).map
        (bound.check strangeSeven (field.residue 4))
      = .ok (.error (.fault (.mixedModuli .mul))) := by
    decide +kernel
  obtain ⟨aggregation, made, passed, -⟩ := all .seven Nat.prime_seven _ ofParameters_seven
    (field.residue 2) (field.residue 4) strangeSeven rfl accepts (field.residue 2) field.one rfl
    (by decide) 1 (by decide)
  rw [made] at faults
  rw [if_pos rfl] at passed
  have failed := Except.ok.inj faults
  cases passed.symm.trans failed

end CoinSpend
