import CoinSpend.Proofs.Extraction
import CoinSpend.Proofs.FieldExpressions

/-!
# The gates assigned for a witness

What the gates hold once wires are assigned for a witness, in closed form and in numbers. The gate
of a bit holds the bit; step `k` starts from the power of the second generator by the number that
the bits `0` to `k` stand for and multiplies by the power that bit `k + 1` selects; the last product
is the commitment to the number that all bits stand for, and the other gates hold zeros.
-/

namespace CoinSpend

open Residue

namespace Parameters

variable (p : Parameters) (w : Witness)

/-- What step `k` starts from: the power of the second generator by the number that the bits `0` to
    `k` stand for, in the last step times the power of the first one by the serial number. -/
def runningProduct (k : ℕ) : Residue :=
  p.field.residue ((if k + 2 = p.serialSize then p.g.value ^ w.serial.value else 1)
    * p.h.value ^ bitSum w.bit (k + 1))

/-- What step `k` multiplies by: the power that bit `k + 1` selects. -/
def selectedPower (k : ℕ) : Residue :=
  p.field.residue (p.h.value ^ ((w.bit (k + 1)).toNat * 2 ^ (k + 1)))

theorem runningProduct_eq (k : ℕ) :
    p.runningProduct w k
      = ofZMod (stepLeft p.serialSize p.hClass (p.gClass ^ w.serial.value) w.bit k) := by
  rw [runningProduct, stepLeft, p.field.residue_eq]
  by_cases last : k + 2 = p.serialSize
  · rw [if_pos last, if_pos last, ← p.field.residue_eq, p.residue_powers, mul_comm]
  · simp only [if_neg last, one_mul, mul_one, Nat.cast_pow]
    rfl

theorem selectedPower_eq (k : ℕ) :
    p.selectedPower w k = ofZMod (selected p.hClass w.bit (k + 1)) := by
  rw [selectedPower, p.field.residue_eq, Nat.cast_pow]
  rfl

end Parameters

theorem classTriple_bitClasses (field : PrimeField) (bit : Bool) :
    classTriple (bitClasses field.modulus bit)
      = ⟨field.ofInt bit.toNat, field.ofInt (bit.toNat - 1), field.zero⟩ := by
  simp only [field.ofInt_eq, field.zero_eq]
  cases bit
  · simp [classTriple, bitClasses, Triple.ofFn]
  · simp [classTriple, bitClasses, Triple.ofFn]

namespace Wires

/-- Wires that hold what is computed for a witness, whose bits need not be those of its
    randomness. -/
structure ComputedFor (p : Parameters) (w : Witness) (wires : Wires) : Prop where
  multiplies : ∀ cell : Cell, cell.Inside wires.layout.rows wires.layout.columns →
    ∃ gate, wires.gates.get? cell = some gate ∧ gate.a.mul gate.b = .ok gate.c
  bit : ∀ i < p.serialSize, wires.gates.get? (wires.layout.cell i)
    = some ⟨p.field.ofInt (w.bit i).toNat, p.field.ofInt ((w.bit i).toNat - 1), p.field.zero⟩
  step : ∀ k, k + 1 < p.serialSize →
    wires.value? .a (wires.layout.cell (p.serialSize + k)) = some (p.runningProduct w k) ∧
    wires.value? .b (wires.layout.cell (p.serialSize + k)) = some (p.selectedPower w k)
  final : wires.final = .ok (p.field.residue
    (p.g.value ^ w.serial.value * p.h.value ^ bitSum w.bit p.serialSize))
  unused : ∀ i, 2 * p.serialSize - 1 ≤ i → i < wires.layout.rows * wires.layout.columns →
    wires.gates.get? (wires.layout.cell i) = some ⟨p.field.zero, p.field.zero, p.field.zero⟩

variable {p : Parameters} {layout : Layout} {w : Witness}

/-- The wires of a list of bits, gate by gate. -/
theorem computedFor_ofClasses (size : layout.serialSize = p.serialSize) :
    (ofClasses layout
      (honest layout.serialSize p.hClass (p.gClass ^ w.serial.value) w.bit)).ComputedFor p w := by
  have long := layout.three_le_serialSize
  have used := layout.usedCount_le
  unfold Layout.usedCount at used
  rw [size] at long used ⊢
  constructor
  case multiplies =>
    intro cell inside
    refine ⟨_, get?_ofClasses _ inside, ?_⟩
    have gate : gateResidual (honest p.serialSize p.hClass (p.gClass ^ w.serial.value) w.bit)
        (cell.position layout.columns) = 0 := gateResidual_honest _
    rw [gateResidual, sub_eq_zero] at gate
    simp only [classTriple, Triple.a_ofFn, Triple.b_ofFn, Triple.c_ofFn, mul_ofZMod, gate]
  case bit =>
    intro i below
    rw [← classTriple_bitClasses]
    refine (get?_cell _ (by omega)).trans ?_
    simp only [honest_bit below]
  case step =>
    intro k below
    rw [p.runningProduct_eq, p.selectedPower_eq]
    constructor
    · exact (value?_cell _ .a (by omega)).trans (by rw [honest_step below]; rfl)
    · exact (value?_cell _ .b (by omega)).trans (by rw [honest_step below]; rfl)
  case final =>
    rw [final_ofClasses, size, honest_final (by omega), p.residue_powers]
  case unused =>
    intro i beyond below
    have unassigned (wire : Wire) :
        honest p.serialSize p.hClass (p.gClass ^ w.serial.value) w.bit wire i = 0 := by
      rw [honest, if_neg (by omega), if_neg (by omega)]
    refine (get?_cell _ below).trans ?_
    simp only [unassigned, p.field.zero_eq]
    rfl

/-- Wires are assigned for every witness whose randomness has no more bits than the circuit, and
    they hold what is computed for its serial number and its bits. -/
theorem assign_computedFor (accepted : Layout.ofShape p.shape = .ok layout) (w : Witness)
    (narrow : w.randomness.value < 2 ^ p.serialSize) :
    ∃ wires, assign w p = .ok wires ∧ wires.layout = layout ∧ wires.ComputedFor p w := by
  have size : layout.serialSize = p.serialSize := (Layout.describes_of_ofShape accepted).serialSize
  have short : bitLength w.randomness.value ≤ layout.serialSize := by
    rw [size]
    exact Nat.le_of_not_lt (mt lt_bitLength_iff.mp (Nat.not_le.mpr narrow))
  exact ⟨_, assign_eq_ok accepted short, rfl, computedFor_ofClasses size⟩

/-- All three bits are claimed to be set, which are not those of the randomness five: the second
    step starts from `3 ^ 2 * 5 ^ 3`, multiplies by `5 ^ 4`, and the last cell is left over. -/
theorem assign_computedFor_seven :
    let field := Parameters.seven.field
    ∃ wires, assign ⟨field.residue 2, field.residue 5, fun _ => true⟩ .seven = .ok wires ∧
      wires.gates.get? ⟨0, 2⟩ = some ⟨field.residue 1, field.residue 0, field.residue 0⟩ ∧
      wires.value? .a ⟨1, 1⟩ = some (field.residue (3 ^ 2 * 5 ^ 3)) ∧
      wires.value? .b ⟨1, 1⟩ = some (field.residue (5 ^ 4)) ∧
      wires.final = .ok (field.residue (3 ^ 2 * 5 ^ 7)) ∧
      wires.gates.get? ⟨1, 2⟩ = some ⟨field.residue 0, field.residue 0, field.residue 0⟩ := by
  intro field
  have accepted : Layout.ofShape Parameters.seven.shape = .ok .seven := by decide
  obtain ⟨wires, assigned, same, computed⟩ :=
    assign_computedFor accepted ⟨field.residue 2, field.residue 5, fun _ => true⟩ (by decide)
  have cell (i : ℕ) : wires.layout.cell i = Layout.seven.cell i := by rw [same]
  have room : 5 < wires.layout.rows * wires.layout.columns := by
    rw [same]
    decide
  have last := computed.step 1 (by decide)
  have left := computed.unused 5 (by decide) room
  rw [cell] at last left
  refine ⟨wires, assigned, ?_, last.1, last.2, computed.final, left⟩
  have bit := computed.bit 2 (by decide)
  rwa [cell] at bit

end Wires

end CoinSpend
