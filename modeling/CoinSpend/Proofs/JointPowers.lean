import CoinSpend.Coin
import CoinSpend.Proofs.Extraction

/-!
# Joint powers and separate powers

The joint power of two residues is the product of their separate powers, whatever the exponents
are, and faults where that product does. Commitments are joint powers of the two generators, so
that they are what a product of two separate powers gives.
-/

namespace CoinSpend

namespace Residue

variable {g h : Residue}

/-- Both ways of finding the product break the same contract if the residues are of two fields. -/
theorem jointPower_of_foreign (foreign : ¬g.SameField h) (a b : ℕ) :
    g.jointPower a h b = (g.pow a).mul (h.pow b) := by
  have powers : ¬(g.pow a).SameField (h.pow b) := foreign
  rw [jointPower, mul, if_neg foreign, mul, if_neg powers]
  rfl

/-- One chain of squarings for both exponents finds what two separate chains find. -/
theorem jointPower_eq_mul_pow (g h : Residue) (a b : ℕ) :
    g.jointPower a h b = (g.pow a).mul (h.pow b) := by
  by_cases same : g.SameField h
  · obtain ⟨q, ofH⟩ : ∃ q, h.modulus = q := ⟨_, rfl⟩
    have ofG : g.modulus = q := Eq.trans same ofH
    have : NeZero q := ⟨ofH ▸ h.modulus_pos.ne'⟩
    obtain ⟨z, rfl⟩ := exists_eq_ofZMod ofG
    obtain ⟨w, rfl⟩ := exists_eq_ofZMod ofH
    rw [jointPower_ofZMod, pow_ofZMod, pow_ofZMod, mul_ofZMod]
  · exact jointPower_of_foreign same a b

/-- The product of two powers, in terms of the representatives. -/
theorem mul_pow_eq_residue {field : PrimeField} (ofG : field.Contains g) (ofH : field.Contains h)
    (a b : ℕ) :
    (g.pow a).mul (h.pow b) = .ok (field.residue (g.value ^ a * h.value ^ b)) := by
  obtain ⟨z, rfl⟩ := exists_eq_ofZMod ofG
  obtain ⟨w, rfl⟩ := exists_eq_ofZMod ofH
  rw [pow_ofZMod, pow_ofZMod, mul_ofZMod, field.residue_mul_pow, toZMod_ofZMod, toZMod_ofZMod]

end Residue

/-- All operations on an opening agree that the commitment to it is `value`: it is what they commit
    to, what is published, and what a published value is compared with. -/
structure Parameters.CommitsTo (p : Parameters) (serial randomness value : Residue) : Prop where
  commit : p.commit serial randomness = .ok value
  publish : (Coin.mk serial randomness).publish p = .ok ⟨value.value⟩
  opens : ∀ (c : Commitment) (bit : ℕ → Bool),
    c.isOpenedBy p ⟨serial, randomness, bit⟩ = .ok (decide (c.value = value.value))

theorem Parameters.commitsTo_of_commit {p : Parameters} {serial randomness value : Residue}
    (commit : p.commit serial randomness = .ok value) : p.CommitsTo serial randomness value where
  commit := commit
  publish := by
    rw [Coin.publish, commit]
    rfl
  opens := by
    intro c bit
    rw [Commitment.isOpenedBy, commit, ok_bind, beq_eq_decide]
    simp only [eq_comm, pure_eq_ok]

/-- The joint power of two residues of a field is the product of their powers, for exponents of any
    size, and every operation on an opening takes that product of the generators as its
    commitment. -/
theorem joint_power_is_product :
    (∀ (field : PrimeField) (g h : Residue), field.Contains g → field.Contains h → ∀ a b : ℕ,
      ∃ product, g.jointPower a h b = .ok product ∧ (g.pow a).mul (h.pow b) = .ok product ∧
        product = field.residue (g.value ^ a * h.value ^ b)) ∧
    ∀ (p : Parameters) (serial randomness : Residue),
      ∃ product, (p.g.pow serial.value).mul (p.h.pow randomness.value) = .ok product ∧
        product = p.field.residue (p.g.value ^ serial.value * p.h.value ^ randomness.value) ∧
        p.CommitsTo serial randomness product := by
  constructor
  · intro field g h ofG ofH a b
    have product := Residue.mul_pow_eq_residue ofG ofH a b
    exact ⟨_, (Residue.jointPower_eq_mul_pow g h a b).trans product, product, rfl⟩
  · intro p serial randomness
    have product := Residue.mul_pow_eq_residue p.isGenerator_g.1 p.isGenerator_h.1 serial.value
      randomness.value
    refine ⟨_, product, rfl, Parameters.commitsTo_of_commit ?_⟩
    exact (Residue.jointPower_eq_mul_pow _ _ _ _).trans product

/-- A zero to the power zero is one, and the longer exponent may belong to either of the two. The
    serial number two and the randomness four are committed to by `3 ^ 2 * 5 ^ 4`. -/
theorem joint_power_is_product_seven :
    let field := Parameters.seven.field
    (field.residue 3).jointPower 100 (field.residue 0) 0 = .ok (field.residue 4) ∧
      (field.residue 3).jointPower 1 (field.residue 0) 100 = .ok (field.residue 0) ∧
      Parameters.seven.CommitsTo (field.residue 2) (field.residue 4) (field.residue 4) := by
  intro field
  obtain ⟨powers, commitments⟩ := joint_power_is_product
  have three : field.Contains (field.residue 3) := rfl
  have zero : field.Contains (field.residue 0) := rfl
  obtain ⟨long, first, -, longEq⟩ := powers field _ _ three zero 100 0
  obtain ⟨short, second, -, shortEq⟩ := powers field _ _ three zero 1 100
  obtain ⟨value, -, valueEq, committed⟩ :=
    commitments .seven (field.residue 2) (field.residue 4)
  obtain rfl : long = field.residue 4 := longEq.trans (by decide)
  obtain rfl : short = field.residue 0 := shortEq.trans (by decide)
  obtain rfl : value = field.residue 4 := valueEq.trans (by decide)
  exact ⟨first, second, committed⟩

end CoinSpend
