import CoinSpend.Proofs.ChallengePowers
import Mathlib.FieldTheory.Finite.Basic

/-!
# Inverses

The power by two less than the modulus is the inverse in the field of classes whenever the modulus
is prime, two included, where the exponent is zero. All laws of inverses are laws of that field.
-/

namespace CoinSpend

namespace Residue

section

variable {q : ℕ} [NeZero q]

theorem eq_zero_iff {z : ZMod q} : ofZMod z = (ofZMod z).zero ↔ z = 0 := by
  rw [zero_ofZMod, ofZMod_inj]

/-- Zero alone has no inverse, also where the modulus is not prime. -/
theorem inverse?_eq_none_iff {z : ZMod q} : (ofZMod z).inverse? = none ↔ z = 0 := by
  by_cases zero : z = 0
  · rw [inverse?, isZero_ofZMod, decide_eq_true zero]
    exact iff_of_true rfl zero
  · rw [inverse?_ofZMod zero]
    exact iff_of_false (Option.some_ne_none _) zero

end

section

variable {q : ℕ} [Fact q.Prime] {z : ZMod q}

/-- The power that a class is inverted by is its inverse. -/
theorem inversePower_eq_inv (nonzero : z ≠ 0) : inversePower z = z⁻¹ := by
  have two := (Fact.out : q.Prime).two_le
  have fermat : z * inversePower z = 1 := by
    calc z * inversePower z
      _ = z ^ (q - 2 + 1) := (pow_succ' z (q - 2)).symm
      _ = z ^ (q - 1) := by rw [show q - 2 + 1 = q - 1 by omega]
      _ = 1 := ZMod.pow_card_sub_one_eq_one nonzero
  exact eq_inv_of_mul_eq_one_right fermat

theorem inverse?_eq_some (nonzero : z ≠ 0) : (ofZMod z).inverse? = some (ofZMod z⁻¹) := by
  rw [inverse?_ofZMod nonzero, inversePower_eq_inv nonzero]

end

/-- `b` is the canonical inverse of `a`: their product is one, inverting `b` gives `a` back, and
    inverting goes through powers and products. -/
structure InverseOf (b a : Residue) : Prop where
  sameField : b.modulus = a.modulus
  canonical : b.value < a.modulus
  mul_eq_one : a.mul b = .ok a.one
  inverse_eq : b.inverse? = some a
  pow : ∀ n, (a.pow n).inverse? = some (b.pow n) ∧ (a.pow n).mul (b.pow n) = .ok a.one
  mul : ∀ c, c.modulus = a.modulus → c ≠ c.zero →
    ∃ product d inverse, a.mul c = .ok product ∧ c.inverse? = some d ∧ b.mul d = .ok inverse ∧
      product.inverse? = some inverse

theorem inverseOf_inv {q : ℕ} [Fact q.Prime] {z : ZMod q} (nonzero : z ≠ 0) :
    (ofZMod z⁻¹).InverseOf (ofZMod z) where
  sameField := rfl
  canonical := ZMod.val_lt z⁻¹
  mul_eq_one := by rw [mul_ofZMod, mul_inv_cancel₀ nonzero, one_ofZMod]
  inverse_eq := by rw [inverse?_eq_some (inv_ne_zero nonzero), inv_inv]
  pow := by
    intro n
    have power : z ^ n ≠ 0 := pow_ne_zero n nonzero
    rw [pow_ofZMod, pow_ofZMod, inv_pow]
    exact ⟨inverse?_eq_some power, by rw [mul_ofZMod, mul_inv_cancel₀ power, one_ofZMod]⟩
  mul := by
    intro c ofField notZero
    obtain ⟨w, rfl⟩ := exists_eq_ofZMod (q := q) ofField
    have factor : w ≠ 0 := mt eq_zero_iff.mpr notZero
    refine ⟨_, _, _, mul_ofZMod z w, inverse?_eq_some factor, mul_ofZMod _ _, ?_⟩
    rw [inverse?_eq_some (mul_ne_zero nonzero factor), mul_inv]

end Residue

/-- Over a prime modulus zero alone has no inverse, and every other residue has one. -/
theorem inverse_of_prime_modulus {a : Residue} (prime : a.modulus.Prime) :
    (a.inverse? = none ↔ a = a.zero) ∧
      (a ≠ a.zero → ∃ b, a.inverse? = some b ∧ b.InverseOf a) := by
  obtain ⟨q, modulus⟩ : ∃ q, a.modulus = q := ⟨_, rfl⟩
  have : Fact q.Prime := ⟨modulus ▸ prime⟩
  obtain ⟨z, rfl⟩ := Residue.exists_eq_ofZMod modulus
  constructor
  · rw [Residue.inverse?_eq_none_iff, Residue.eq_zero_iff]
  · intro notZero
    have nonzero : z ≠ 0 := mt Residue.eq_zero_iff.mpr notZero
    exact ⟨_, Residue.inverse?_eq_some nonzero, Residue.inverseOf_inv nonzero⟩

/-- Modulo seven the inverse of three is five, and modulo two, where the exponent is zero, one is
    its own inverse. -/
theorem inverse_of_prime_modulus_seven_two :
    let three : Residue := ⟨7, 3, by decide⟩
    let one : Residue := ⟨2, 1, by decide⟩
    (three.embed 5).InverseOf three ∧ one.InverseOf one ∧ one.zero.inverse? = none := by
  intro three one
  obtain ⟨-, seven⟩ := inverse_of_prime_modulus (a := three) Nat.prime_seven
  obtain ⟨-, two⟩ := inverse_of_prime_modulus (a := one) Nat.prime_two
  obtain ⟨none, -⟩ := inverse_of_prime_modulus (a := one.zero) Nat.prime_two
  obtain ⟨b, found, inverse⟩ := seven (by decide)
  obtain ⟨c, found', inverse'⟩ := two (by decide)
  have five : three.inverse? = some (three.embed 5) := by decide
  have same : one.inverse? = some one := by decide
  obtain rfl := Option.some.inj (five.symm.trans found)
  obtain rfl := Option.some.inj (same.symm.trans found')
  exact ⟨inverse, inverse', none.mpr rfl⟩

end CoinSpend
