import CoinSpend.Proofs.HonestWires
import Mathlib.Algebra.Field.ZMod
import Mathlib.Tactic.LinearCombination

/-!
# What the linear constraints say

The checked constraints of a parameter set hold exactly when the wires satisfy a handful of linear
relations. Together with the gates these leave no freedom once the first factors of the bits are
known, and over a field they make those factors bits.
-/

namespace CoinSpend

open Residue

section

variable {q : ℕ} {size : ℕ} {h G : ZMod q} {V V' : Wire → ℕ → ZMod q} {bit : ℕ → Bool}

/-- The relations that the checked constraints for `size` bits stand for. -/
structure LinearRelations (size : ℕ) (h G : ZMod q) (V : Wire → ℕ → ZMod q) : Prop where
  complement : ∀ k < size, V .a k - V .b k - 1 = 0
  product : ∀ k < size, V .c k = 0
  recurrence : ∀ k, k + 1 < size →
    (h ^ 2 ^ (k + 1) - 1) * V .a (k + 1) - V .b (size + k) + 1 = 0
  anchor : V .a size + (1 - h) * V .b 0 - h = 0
  chain : ∀ k, k + 2 < size →
    V .a (size + (k + 1)) - (if k + 3 = size then G else 1) * V .c (size + k) = 0

/-! ## The wires assigned for bits -/

theorem gateResidual_honest (i : ℕ) : gateResidual (honest size h G bit) i = 0 := by
  unfold gateResidual honest
  split
  case isTrue => cases bit i <;> simp [bitClasses]
  case isFalse =>
    split
    case isTrue => exact sub_self _
    case isFalse => simp

theorem linearRelations_honest (long : 3 ≤ size) :
    LinearRelations size h G (honest size h G bit) where
  complement := by
    intro k below
    rw [honest_bit below, honest_bit below]
    simp [bitClasses]
  product := by
    intro k below
    rw [honest_bit below]
    rfl
  recurrence := by
    intro k below
    rw [honest_bit below, honest_step below]
    cases value : bit (k + 1)
    · simp [bitClasses, stepClasses, selected, value]
    · simp [bitClasses, stepClasses, selected, value]
  anchor := by
    have notLast : ¬0 + 2 = size := by omega
    have first : honest size h G bit .a size = stepClasses size h G bit 0 .a :=
      honest_step (show 0 + 1 < size by omega)
    rw [first, honest_bit (show 0 < size by omega)]
    simp only [bitClasses, stepClasses, stepLeft, bitSum_succ, bitSum_zero, if_neg notLast]
    cases bit 0
    · simp
    · simp
  chain := by
    intro k below
    have notLast : ¬k + 2 = size := by omega
    rw [honest_step (by omega), honest_step (by omega)]
    simp only [stepClasses, stepLeft, if_neg notLast, mul_one, ← power_succ]
    ring

/-- The relations are about the positions in use. -/
theorem LinearRelations.of_agree (relations : LinearRelations size h G V') (long : 3 ≤ size)
    (same : ∀ wire, ∀ i < 2 * size - 1, V wire i = V' wire i) : LinearRelations size h G V where
  complement := by
    intro k below
    rw [same .a k (by omega), same .b k (by omega)]
    exact relations.complement k below
  product := by
    intro k below
    rw [same .c k (by omega)]
    exact relations.product k below
  recurrence := by
    intro k below
    rw [same .a (k + 1) (by omega), same .b (size + k) (by omega)]
    exact relations.recurrence k below
  anchor := by
    rw [same .a size (by omega), same .b 0 (by omega)]
    exact relations.anchor
  chain := by
    intro k below
    rw [same .a (size + (k + 1)) (by omega), same .c (size + k) (by omega)]
    exact relations.chain k below

/-- Wires that satisfy the gates and the relations are determined by the first factors of the
    bits. -/
theorem LinearRelations.agree (relations : LinearRelations size h G V)
    (relations' : LinearRelations size h G V') (long : 3 ≤ size)
    (gates : ∀ i < 2 * size - 1, gateResidual V i = 0)
    (gates' : ∀ i < 2 * size - 1, gateResidual V' i = 0) (bits : ∀ k < size, V .a k = V' .a k)
    (wire : Wire) {i : ℕ} (below : i < 2 * size - 1) : V wire i = V' wire i := by
  have complement (k : ℕ) (below : k < size) : V .b k = V' .b k := by
    linear_combination bits k below - relations.complement k below + relations'.complement k below
  have selector (k : ℕ) (below : k + 1 < size) : V .b (size + k) = V' .b (size + k) := by
    linear_combination (h ^ 2 ^ (k + 1) - 1) * bits (k + 1) below - relations.recurrence k below
      + relations'.recurrence k below
  have product (k : ℕ) (below : k + 1 < size) (left : V .a (size + k) = V' .a (size + k)) :
      V .c (size + k) = V' .c (size + k) := by
    have gate : V .a (size + k) * V .b (size + k) - V .c (size + k) = 0 := gates _ (by omega)
    have gate' : V' .a (size + k) * V' .b (size + k) - V' .c (size + k) = 0 := gates' _ (by omega)
    rw [left, selector k below] at gate
    linear_combination gate' - gate
  -- Each step takes over the product of the step before, the first one starts from bit zero.
  have left (k : ℕ) (below : k + 1 < size) : V .a (size + k) = V' .a (size + k) := by
    induction k with
    | zero =>
      rw [Nat.add_zero]
      linear_combination relations.anchor - relations'.anchor
        - (1 - h) * complement 0 (by omega)
    | succ k ih =>
      have previous := product k (by omega) (ih (by omega))
      linear_combination relations.chain k below - relations'.chain k below
        + (if k + 3 = size then G else 1) * previous
  by_cases ofBit : i < size
  · cases wire with
    | a => exact bits i ofBit
    | b => exact complement i ofBit
    | c => rw [relations.product i ofBit, relations'.product i ofBit]
  · obtain ⟨k, rfl⟩ := Nat.exists_eq_add_of_le (Nat.le_of_not_lt ofBit)
    have step : k + 1 < size := by omega
    cases wire with
    | a => exact left k step
    | b => exact selector k step
    | c => exact product k step (left k step)

/-- Over a field the first factors of the bits are bits. -/
theorem LinearRelations.isBit [Fact q.Prime] (relations : LinearRelations size h G V)
    {k : ℕ} (below : k < size) (gate : gateResidual V k = 0) : V .a k = 0 ∨ V .a k = 1 := by
  rw [gateResidual, relations.product k below, sub_zero, mul_eq_zero] at gate
  rcases gate with zero | zero
  · exact Or.inl zero
  · right
    linear_combination relations.complement k below + zero

/-- Wires over a field that satisfy the gates and the relations are the wires of bits. -/
theorem LinearRelations.exists_bits [Fact q.Prime] (relations : LinearRelations size h G V)
    (long : 3 ≤ size) (gates : ∀ i < 2 * size - 1, gateResidual V i = 0) :
    ∃ bit : ℕ → Bool, ∀ wire, ∀ i < 2 * size - 1, V wire i = honest size h G bit wire i := by
  refine ⟨fun k => decide (V .a k = 1), ?_⟩
  intro wire i below
  apply relations.agree (linearRelations_honest long) long gates
    (fun j _ => gateResidual_honest j) _ wire below
  intro k ofBit
  rw [honest_bit ofBit]
  rcases relations.isBit ofBit (gates k (by omega)) with zero | one
  · simp [bitClasses, zero]
  · simp [bitClasses, one]

/-- The factors of a step are powers of the generators, so that they are not zero. -/
theorem LinearRelations.step_ne_zero [Fact q.Prime] (relations : LinearRelations size h G V)
    (long : 3 ≤ size) (gates : ∀ i < 2 * size - 1, gateResidual V i = 0) (unit : h ≠ 0)
    (unit' : G ≠ 0) {i : ℕ} (step : size ≤ i) (below : i < 2 * size - 1) :
    V .a i ≠ 0 ∧ V .b i ≠ 0 := by
  -- Every passing state is that of some bits, in which no factor of a step is zero.
  obtain ⟨bit, assigned⟩ := relations.exists_bits long gates
  obtain ⟨k, rfl⟩ := Nat.exists_eq_add_of_le step
  constructor
  · rw [assigned .a _ below, honest_step (by omega)]
    refine mul_ne_zero (pow_ne_zero _ unit) ?_
    split
    case isTrue => exact unit'
    case isFalse => exact one_ne_zero
  · rw [assigned .b _ below, honest_step (by omega)]
    exact pow_ne_zero _ unit

end

/-! ## The checked constraints -/

namespace LinearSystem

variable {p : Parameters} {layout : Layout} {G : ZMod p.field.modulus}
  {V : Wire → ℕ → ZMod p.field.modulus}

/-- The checked constraints of a parameter set hold exactly when the relations do. -/
theorem residuals_eq_zero_iff :
    (∀ i < layout.checkedCount, (onLayout p layout).residual G V i = 0)
      ↔ LinearRelations layout.serialSize p.hClass G V := by
  have size := layout.three_le_serialSize
  constructor
  · intro zero
    unfold Layout.checkedCount at zero
    constructor
    case complement =>
      intro k below
      rw [← residual_complement G V below]
      exact zero k (by omega)
    case product =>
      intro k below
      rw [← residual_product G V below]
      exact zero _ (by omega)
    case recurrence =>
      intro k below
      rw [← residual_recurrence G V below]
      exact zero _ (by omega)
    case anchor =>
      rw [← residual_anchor G V]
      exact zero _ (by omega)
    case chain =>
      intro k below
      have row := residual_chain G V below
      simp only [layout.succ_eq_lastStep_iff] at row
      rw [← row]
      exact zero _ (by omega)
  · intro relations
    apply Layout.forall_checked
    case complement =>
      intro k below
      rw [residual_complement G V below]
      exact relations.complement k below
    case product =>
      intro k below
      rw [residual_product G V below]
      exact relations.product k below
    case recurrence =>
      intro k below
      rw [residual_recurrence G V below]
      exact relations.recurrence k below
    case anchor =>
      rw [residual_anchor G V]
      exact relations.anchor
    case chain =>
      intro k below
      rw [residual_chain G V below]
      simp only [layout.succ_eq_lastStep_iff]
      exact relations.chain k below

end LinearSystem

end CoinSpend
