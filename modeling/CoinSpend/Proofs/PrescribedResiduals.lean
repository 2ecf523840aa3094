import CoinSpend.Proofs.SpendRelations

/-!
# Wires with prescribed residuals

The checked constraints give every wire in use but the first factors of the bits from other wires,
and the gates give the products of the steps. So whatever the gates and the constraints are to be
off by, there are wires that are off by just that, if the first factor of every bit solves the
quadratic equation that the gate and the two constraints of the bit leave for it.
-/

namespace CoinSpend

/-- What the gates and the checked constraints for `size` bits are to be off by, and first factors
    of the bits that allow for it. -/
structure Prescription (q size : ℕ) where
  gate : ℕ → ZMod q
  row : ℕ → ZMod q
  bit : ℕ → ZMod q
  bit_solves : ∀ k < size, bit k * (bit k - 1 - row k) - row (size + k) = gate k

namespace Prescription

variable {q size : ℕ} (r : Prescription q size) (h G : ZMod q)

/-- The gate of bit `k`. -/
def bitClasses (k : ℕ) : Wire → ZMod q
  | .a => r.bit k
  | .b => r.bit k - 1 - r.row k
  | .c => r.row (size + k)

/-- The second factor of step `k`, by the recurrence. -/
def stepRight (k : ℕ) : ZMod q :=
  (h ^ 2 ^ (k + 1) - 1) * r.bit (k + 1) + 1 - r.row (2 * size + k)

/-- The first factor of step `k`, by the anchor and then by the links of the chain. -/
def stepLeft : ℕ → ZMod q
  | 0 => h - (1 - h) * r.bitClasses 0 .b + r.row (3 * size - 1)
  | k + 1 =>
      (if k + 3 = size then G else 1) * (stepLeft k * r.stepRight h k - r.gate (size + k))
        + r.row (3 * size + k)

/-- The gate of step `k`. -/
def stepClasses (k : ℕ) : Wire → ZMod q
  | .a => r.stepLeft h G k
  | .b => r.stepRight h k
  | .c => r.stepLeft h G k * r.stepRight h k - r.gate (size + k)

/-- A gate that is not in use. -/
def restClasses (i : ℕ) : Wire → ZMod q
  | .c => -r.gate i
  | _ => 0

/-- The classes of all wires, where `G` is the class of the serial power. -/
def classes (wire : Wire) (i : ℕ) : ZMod q :=
  if i < size then r.bitClasses i wire
  else if i < 2 * size - 1 then r.stepClasses h G (i - size) wire
  else r.restClasses i wire

variable {k : ℕ} {wire : Wire}

theorem classes_bit (below : k < size) : r.classes h G wire k = r.bitClasses k wire :=
  if_pos below

theorem classes_step (below : k + 1 < size) :
    r.classes h G wire (size + k) = r.stepClasses h G k wire := by
  rw [classes, if_neg (by omega), if_pos (by omega), Nat.add_sub_cancel_left]

/-- Every gate is off by what is prescribed for it. -/
theorem gateResidual_classes (i : ℕ) : gateResidual (r.classes h G) i = r.gate i := by
  by_cases ofBit : i < size
  · rw [gateResidual, r.classes_bit h G ofBit, r.classes_bit h G ofBit, r.classes_bit h G ofBit]
    exact r.bit_solves i ofBit
  by_cases ofStep : i < 2 * size - 1
  · obtain ⟨k, rfl⟩ := Nat.exists_eq_add_of_le (Nat.le_of_not_lt ofBit)
    have below : k + 1 < size := by omega
    rw [gateResidual, r.classes_step h G below, r.classes_step h G below,
      r.classes_step h G below]
    exact sub_sub_cancel _ _
  · have unused (wire : Wire) : r.classes h G wire i = r.restClasses i wire := by
      rw [classes, if_neg ofBit, if_neg ofStep]
    rw [gateResidual, unused, unused, unused]
    simp [restClasses]

end Prescription

/-- Every checked constraint is off by what is prescribed for it. -/
theorem LinearSystem.residual_classes {p : Parameters} {layout : Layout}
    (r : Prescription p.field.modulus layout.serialSize) (G : ZMod p.field.modulus) :
    ∀ i < layout.checkedCount,
      (onLayout p layout).residual G (r.classes p.hClass G) i = r.row i := by
  have long := layout.three_le_serialSize
  apply Layout.forall_checked
  case complement =>
    intro k below
    rw [residual_complement _ _ below, r.classes_bit _ _ below, r.classes_bit _ _ below]
    simp only [Prescription.bitClasses]
    ring
  case product =>
    intro k below
    rw [residual_product _ _ below, r.classes_bit _ _ below]
    rfl
  case recurrence =>
    intro k below
    rw [residual_recurrence _ _ below, r.classes_bit _ _ below, r.classes_step _ _ below]
    simp only [Prescription.bitClasses, Prescription.stepClasses, Prescription.stepRight]
    ring
  case anchor =>
    have first : r.classes p.hClass G .a (layout.serialSize + 0) = r.stepClasses p.hClass G 0 .a :=
      r.classes_step p.hClass G (by omega)
    rw [Nat.add_zero] at first
    rw [residual_anchor, first, r.classes_bit _ _ (by omega)]
    simp only [Prescription.bitClasses, Prescription.stepClasses, Prescription.stepLeft]
    ring
  case chain =>
    intro k below
    rw [residual_chain _ _ below, r.classes_step _ _ (by omega), r.classes_step _ _ (by omega)]
    simp only [layout.succ_eq_lastStep_iff, Prescription.stepClasses, Prescription.stepLeft]
    ring

end CoinSpend
