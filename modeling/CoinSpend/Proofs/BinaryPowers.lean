import CoinSpend.Number.Digits
import Mathlib.Algebra.BigOperators.Intervals
import Mathlib.Data.Nat.ModEq
import Mathlib.Data.Nat.Size
import Mathlib.Tactic.Ring

/-!
# Binary digits and powers

A number is the sum of the powers of two at its set bits, and the powers found by squaring are
those of the number that the bits stand for.
-/

namespace CoinSpend

/-- The number with the given bits, the lowest one first. -/
def ofBits (bits : List Bool) : ℕ :=
  ofDigits 2 (bits.map Bool.toNat)

theorem ofBits_nil : ofBits [] = 0 := rfl

theorem ofBits_cons (bit : Bool) (upper : List Bool) :
    ofBits (bit :: upper) = bit.toNat + 2 * ofBits upper := by
  simp [ofBits, ofDigits_cons]

/-- The number whose bits below `count` are given by `bit`, and which has no others. -/
def bitSum (bit : ℕ → Bool) (count : ℕ) : ℕ :=
  ∑ i ∈ Finset.range count, (bit i).toNat * 2 ^ i

theorem bitSum_zero (bit : ℕ → Bool) : bitSum bit 0 = 0 := rfl

theorem bitSum_succ (bit : ℕ → Bool) (count : ℕ) :
    bitSum bit (count + 1) = bitSum bit count + (bit count).toNat * 2 ^ count :=
  Finset.sum_range_succ _ _

theorem bitSum_congr {bit bit' : ℕ → Bool} {count : ℕ} (h : ∀ i < count, bit i = bit' i) :
    bitSum bit count = bitSum bit' count := by
  apply Finset.sum_congr rfl
  intro i member
  rw [h i (Finset.mem_range.mp member)]

theorem bitSum_lt (bit : ℕ → Bool) (count : ℕ) : bitSum bit count < 2 ^ count := by
  induction count with
  | zero => simp [bitSum_zero]
  | succ count ih =>
    have small : (bit count).toNat ≤ 1 := Bool.toNat_le _
    have top : (bit count).toNat * 2 ^ count ≤ 1 * 2 ^ count := Nat.mul_le_mul_right _ small
    rw [bitSum_succ, pow_succ]
    omega

theorem bitSum_testBit (n count : ℕ) : bitSum n.testBit count = n % 2 ^ count := by
  induction count with
  | zero => simp [bitSum_zero, Nat.mod_one]
  | succ count ih => rw [bitSum_succ, ih, Nat.toNat_testBit, Nat.mod_pow_succ, mul_comm (2 ^ count)]

theorem ofBits_lowBits (width n : ℕ) : ofBits (lowBits width n) = n % 2 ^ width := by
  induction width generalizing n with
  | zero => simp [lowBits_zero, ofBits_nil, Nat.mod_one]
  | succ width ih =>
    rw [lowBits_succ, ofBits_cons, ih, pow_succ', Nat.mod_mul, Nat.testBit_zero]
    rcases Nat.mod_two_eq_zero_or_one n with even | odd
    · simp [even]
    · simp [odd]

theorem bitLength_eq_size (n : ℕ) : bitLength n = n.size := by
  unfold bitLength
  split
  case isTrue zero => rw [zero, Nat.size_zero]
  case isFalse nonzero =>
    apply Nat.le_antisymm
    · exact Nat.lt_size.mpr (Nat.log2_self_le nonzero)
    · exact Nat.size_le.mpr Nat.lt_log2_self

/-- A number needs more than `width` bits exactly when it is not below `2 ^ width`. -/
theorem lt_bitLength_iff {width n : ℕ} : width < bitLength n ↔ 2 ^ width ≤ n := by
  rw [bitLength_eq_size, Nat.lt_size]

theorem ofBits_lowBits_of_le {width n : ℕ} (h : bitLength n ≤ width) :
    ofBits (lowBits width n) = n := by
  rw [ofBits_lowBits]
  apply Nat.mod_eq_of_lt
  by_contra wide
  exact absurd (lt_bitLength_iff.mpr (Nat.le_of_not_lt wide)) (by omega)

private theorem powModBits_modEq (base modulus : ℕ) (bits : List Bool) :
    powModBits base modulus bits ≡ base ^ ofBits bits [MOD modulus] := by
  induction bits with
  | nil => exact Nat.mod_modEq _ _
  | cons bit upper ih =>
    -- The bits above the lowest one are worth twice as much as on their own.
    have squared : powModBits base modulus upper * powModBits base modulus upper % modulus
        ≡ base ^ (2 * ofBits upper) [MOD modulus] := by
      calc powModBits base modulus upper * powModBits base modulus upper % modulus
        _ ≡ powModBits base modulus upper * powModBits base modulus upper [MOD modulus] :=
          Nat.mod_modEq _ _
        _ ≡ base ^ ofBits upper * base ^ ofBits upper [MOD modulus] := ih.mul ih
        _ = base ^ (2 * ofBits upper) := by ring
    rw [ofBits_cons]
    cases bit with
    | false =>
      simpa [powModBits] using squared
    | true =>
      rw [pow_add, Bool.toNat_true, pow_one, mul_comm base]
      exact (Nat.mod_modEq _ _).trans (squared.mul_right base)

theorem powMod_eq (base exponent modulus : ℕ) (positive : 0 < modulus) :
    powMod base exponent modulus = base ^ exponent % modulus := by
  have congruent := powModBits_modEq base modulus (lowBits (bitLength exponent) exponent)
  rw [ofBits_lowBits_of_le (Nat.le_refl _)] at congruent
  exact (Nat.mod_eq_of_lt (powMod_lt positive base exponent)).symm.trans congruent

end CoinSpend
