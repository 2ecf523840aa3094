import CoinSpend.Proofs.Extraction
import Mathlib.GroupTheory.OrderOfElement

/-!
# Openings that a commitment separates

Two openings that differ in one component alone are told apart by the commitment exactly if the two
exponents are not congruent modulo the order of the generator that they belong to. That order
divides the modulus less one, while the exponents run up to the modulus, so that there always are
two that are not told apart.
-/

namespace CoinSpend

open Residue

namespace Coin

/-- The coins publish different values, and neither of them opens what the other one publishes. -/
def Separated (p : Parameters) (coin coin' : Coin) : Prop :=
  ∃ published published', coin.publish p = .ok published ∧ coin'.publish p = .ok published' ∧
    published ≠ published' ∧
    published.isOpenedBy p coin'.toWitness = .ok false ∧
    published'.isOpenedBy p coin.toWitness = .ok false

/-- The coins publish one value, which both of them open. -/
def Conflated (p : Parameters) (coin coin' : Coin) : Prop :=
  ∃ published, coin.publish p = .ok published ∧ coin'.publish p = .ok published ∧
    published.isOpenedBy p coin.toWitness = .ok true ∧
    published.isOpenedBy p coin'.toWitness = .ok true

/-- The class of the commitment to a coin. -/
def commitmentClass (p : Parameters) (coin : Coin) : ZMod p.field.modulus :=
  p.gClass ^ coin.serial.value * p.hClass ^ coin.randomness.value

variable {p : Parameters} {coin coin' : Coin}

theorem publish_eq_ok (p : Parameters) (coin : Coin) :
    coin.publish p = .ok ⟨(coin.commitmentClass p).val⟩ := by
  rw [publish, p.commit_eq_ok]
  rfl

theorem isOpenedBy_toWitness (p : Parameters) (coin : Coin) (c : Commitment) :
    c.isOpenedBy p coin.toWitness = .ok ((coin.commitmentClass p).val == c.value) := by
  rw [Commitment.isOpenedBy, toWitness, Witness.ofOpening, p.commit_eq_ok]
  rfl

theorem conflated_of_class_eq (same : coin.commitmentClass p = coin'.commitmentClass p) :
    coin.Conflated p coin' := by
  refine ⟨_, publish_eq_ok p coin, ?_, ?_, ?_⟩
  · rw [publish_eq_ok, same]
  · rw [isOpenedBy_toWitness, beq_self_eq_true]
  · rw [isOpenedBy_toWitness, same, beq_self_eq_true]

theorem separated_of_class_ne (different : coin.commitmentClass p ≠ coin'.commitmentClass p) :
    coin.Separated p coin' := by
  have value : (coin.commitmentClass p).val ≠ (coin'.commitmentClass p).val :=
    mt (fun same => ZMod.val_injective _ same) different
  refine ⟨_, _, publish_eq_ok p coin, publish_eq_ok p coin', ?_, ?_, ?_⟩
  · exact fun same => value (congrArg Commitment.value same)
  · rw [isOpenedBy_toWitness, beq_eq_false_iff_ne.mpr value.symm]
  · rw [isOpenedBy_toWitness, beq_eq_false_iff_ne.mpr value]

theorem Separated.not_conflated (separated : coin.Separated p coin') : ¬coin.Conflated p coin' := by
  rintro ⟨published, here, here', -⟩
  obtain ⟨other, other', there, there', different, -⟩ := separated
  obtain rfl := Except.ok.inj (here.symm.trans there)
  obtain rfl := Except.ok.inj (here'.symm.trans there')
  exact different rfl

end Coin

/-! ## Exponents -/

section

variable {q : ℕ} [Fact q.Prime] {x : ZMod q}

/-- Powers of a class other than zero are equal if the exponents are congruent modulo its order. -/
theorem pow_eq_pow_iff_modEq_orderOf (unit : x ≠ 0) {a b : ℕ} :
    x ^ a = x ^ b ↔ a ≡ b [MOD orderOf x] := by
  have finite : IsOfFinOrder x := by
    refine isOfFinOrder_iff_pow_eq_one.mpr ⟨q - 1, ?_, ZMod.pow_card_sub_one_eq_one unit⟩
    have := (Fact.out : q.Prime).two_le
    omega
  exact finite.pow_eq_pow_iff_modEq

end

namespace Coin

variable {p : Parameters} [Fact p.field.modulus.Prime] {coin coin' : Coin}

theorem class_eq_iff_of_same_randomness (same : coin.randomness = coin'.randomness) :
    coin.commitmentClass p = coin'.commitmentClass p
      ↔ coin.serial.value ≡ coin'.serial.value [MOD orderOf p.gClass] := by
  rw [commitmentClass, commitmentClass, same, ← pow_eq_pow_iff_modEq_orderOf p.gClass_ne_zero]
  exact mul_left_inj' (pow_ne_zero _ p.hClass_ne_zero)

theorem class_eq_iff_of_same_serial (same : coin.serial = coin'.serial) :
    coin.commitmentClass p = coin'.commitmentClass p
      ↔ coin.randomness.value ≡ coin'.randomness.value [MOD orderOf p.hClass] := by
  rw [commitmentClass, commitmentClass, same, ← pow_eq_pow_iff_modEq_orderOf p.hClass_ne_zero]
  exact mul_right_inj' (pow_ne_zero _ p.gClass_ne_zero)

/-- Whatever the generators are, the first and the last serial number select the same power. -/
theorem conflated_first_last_serial (randomness : Residue) :
    Conflated p ⟨p.field.residue 0, randomness⟩
      ⟨p.field.residue (p.field.modulus - 1), randomness⟩ := by
  apply conflated_of_class_eq
  have two := p.field.two_le_modulus
  have first : (p.field.residue 0).value = 0 := Nat.zero_mod _
  have last : (p.field.residue (p.field.modulus - 1)).value = p.field.modulus - 1 :=
    Nat.mod_eq_of_lt (by omega)
  rw [commitmentClass, commitmentClass, first, last, pow_zero,
    ZMod.pow_card_sub_one_eq_one p.gClass_ne_zero]

end Coin

/-- Over a field, two coins that share the randomness are separated exactly if their serial numbers
    are not congruent modulo the order of the first generator, and two that share the serial number
    exactly if their randomness is not congruent modulo the order of the second one. Coins that are
    not separated publish one value that both of them open. -/
theorem separated_iff_not_modEq {p : Parameters} (prime : p.field.modulus.Prime)
    (coin coin' : Coin) :
    (coin.randomness = coin'.randomness →
      if coin.serial.value ≡ coin'.serial.value [MOD orderOf p.gClass] then coin.Conflated p coin'
      else coin.Separated p coin') ∧
    (coin.serial = coin'.serial →
      if coin.randomness.value ≡ coin'.randomness.value [MOD orderOf p.hClass] then
        coin.Conflated p coin'
      else coin.Separated p coin') := by
  have : Fact p.field.modulus.Prime := ⟨prime⟩
  refine ⟨?_, ?_⟩
  · intro same
    have classes := Coin.class_eq_iff_of_same_randomness (p := p) same
    split
    case isTrue congruent => exact Coin.conflated_of_class_eq (classes.mpr congruent)
    case isFalse apart => exact Coin.separated_of_class_ne (mt classes.mp apart)
  · intro same
    have classes := Coin.class_eq_iff_of_same_serial (p := p) same
    split
    case isTrue congruent => exact Coin.conflated_of_class_eq (classes.mpr congruent)
    case isFalse apart => exact Coin.separated_of_class_ne (mt classes.mp apart)

/-- The serial numbers one and two have the powers three and two, and zero and six the power one. -/
theorem separated_iff_not_modEq_seven :
    let field := Parameters.seven.field
    Coin.Separated .seven ⟨field.residue 1, field.residue 4⟩ ⟨field.residue 2, field.residue 4⟩ ∧
      Coin.Conflated .seven ⟨field.residue 0, field.residue 4⟩
        ⟨field.residue 6, field.residue 4⟩ := by
  intro field
  have prime : Nat.Prime Parameters.seven.field.modulus := Nat.prime_seven
  have divides : orderOf Parameters.seven.gClass ∣ 6 := orderOf_dvd_of_pow_eq_one (by decide)
  have notOne : orderOf Parameters.seven.gClass ≠ 1 := mt orderOf_eq_one_iff.mp (by decide)
  refine ⟨?_, ?_⟩
  · have verdict := (separated_iff_not_modEq prime ⟨field.residue 1, field.residue 4⟩
      ⟨field.residue 2, field.residue 4⟩).1 rfl
    rwa [if_neg] at verdict
    intro congruent
    have one : orderOf Parameters.seven.gClass ∣ 2 - 1 :=
      (Nat.modEq_iff_dvd' (by decide)).mp congruent
    exact notOne (Nat.dvd_one.mp one)
  · have verdict := (separated_iff_not_modEq prime ⟨field.residue 0, field.residue 4⟩
      ⟨field.residue 6, field.residue 4⟩).1 rfl
    rwa [if_pos] at verdict
    exact (Nat.modEq_iff_dvd' (by decide)).mpr divides

/-- Coins that differ in the serial number alone need not be separated: over the field with seven
    elements the serial numbers zero and six are not. -/
theorem not_all_separated :
    ¬∀ p : Parameters, p.field.modulus.Prime → ∀ coin coin' : Coin,
      Coin.ofResidues p coin.serial coin.randomness = .ok coin →
      Coin.ofResidues p coin'.serial coin'.randomness = .ok coin' →
      (coin.randomness = coin'.randomness ∧ coin.serial ≠ coin'.serial) ∨
        (coin.serial = coin'.serial ∧ coin.randomness ≠ coin'.randomness) →
      coin.Separated p coin' := by
  intro all
  have prime : Nat.Prime Parameters.seven.field.modulus := Nat.prime_seven
  have : Fact (Nat.Prime Parameters.seven.field.modulus) := ⟨prime⟩
  let randomness := Parameters.seven.field.residue 4
  have separated := all .seven prime ⟨Parameters.seven.field.residue 0, randomness⟩
    ⟨Parameters.seven.field.residue 6, randomness⟩ (by decide) (by decide)
    (Or.inl ⟨rfl, by decide⟩)
  exact separated.not_conflated (Coin.conflated_first_last_serial randomness)

end CoinSpend
