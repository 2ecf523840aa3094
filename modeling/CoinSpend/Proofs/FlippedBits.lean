import CoinSpend.Proofs.MintedCoins
import CoinSpend.Proofs.SpendVerdicts

/-!
# Flipped bits

A witness with the other value for bit `j` claims a randomness that is off by `2 ^ j`, so that its
last product is off by the factor `h ^ (2 ^ j)`. The commitment tells exactly if that is not one.
The range of the generators sees to it for the lowest bit, but not for the others: the opposite of
one is in the range, and its square is one.
-/

namespace CoinSpend

open Residue

/-- Flipping a bit moves its power of two from one side to the other. -/
theorem bitSum_flip (w : Witness) {j count : ℕ} (below : j < count) :
    bitSum (w.flip j).bit count + (w.bit j).toNat * 2 ^ j
      = bitSum w.bit count + (!w.bit j).toNat * 2 ^ j := by
  induction count with
  | zero => exact absurd below (Nat.not_lt_zero j)
  | succ count ih =>
    rw [bitSum_succ, bitSum_succ]
    rcases Nat.lt_succ_iff_lt_or_eq.mp below with lower | rfl
    · have same : (w.flip j).bit count = w.bit count := if_neg (Nat.ne_of_gt lower)
      have upTo := ih lower
      rw [same]
      omega
    · have lower : bitSum (w.flip j).bit j = bitSum w.bit j :=
        bitSum_congr fun i before => if_neg (Nat.ne_of_lt before)
      have flipped : (w.flip j).bit j = !w.bit j := if_pos rfl
      rw [lower, flipped]
      omega

/-- A power tells a flipped bit exactly if its own power of two is not one. -/
theorem pow_bitSum_flip_iff {q : ℕ} [Fact q.Prime] {x : ZMod q} (unit : x ≠ 0) (w : Witness)
    {j count : ℕ} (below : j < count) :
    x ^ bitSum (w.flip j).bit count = x ^ bitSum w.bit count ↔ x ^ 2 ^ j = 1 := by
  have moved := bitSum_flip w below
  cases value : w.bit j with
  | true =>
    have sum : bitSum w.bit count = bitSum (w.flip j).bit count + 2 ^ j := by
      simpa [value] using moved.symm
    rw [sum, pow_add]
    exact left_eq_mul₀ (pow_ne_zero _ unit)
  | false =>
    have sum : bitSum (w.flip j).bit count = bitSum w.bit count + 2 ^ j := by
      simpa [value] using moved
    rw [sum, pow_add]
    exact mul_eq_left₀ (pow_ne_zero _ unit)

namespace Parameters

variable {p : Parameters} {j : ℕ}

/-- The power of the second generator that bit `j` stands for is one. -/
def Ignores (p : Parameters) (j : ℕ) : Prop :=
  p.h.value ^ 2 ^ j ≡ 1 [MOD p.field.modulus]

instance (p : Parameters) (j : ℕ) : Decidable (p.Ignores j) :=
  inferInstanceAs (Decidable (_ ≡ 1 [MOD _]))

theorem ignores_iff : p.Ignores j ↔ p.hClass ^ 2 ^ j = 1 := by
  rw [Ignores, ← ZMod.natCast_eq_natCast_iff, Nat.cast_pow, Nat.cast_one]
  rfl

/-- The range of a generator leaves out one. -/
theorem not_ignores_zero (p : Parameters) : ¬p.Ignores 0 := by
  intro ignored
  obtain ⟨contained, two⟩ := p.isGenerator_h
  have below : p.h.value < p.field.modulus := Nat.lt_of_lt_of_eq p.h.value_lt contained
  rw [Ignores, pow_zero, pow_one] at ignored
  have one : p.h.value = 1 := Nat.ModEq.eq_of_lt_of_lt ignored below p.field.two_le_modulus
  omega

/-- Squaring one gives one again. -/
theorem Ignores.of_le {k : ℕ} (ignored : p.Ignores j) (le : j ≤ k) : p.Ignores k := by
  rw [ignores_iff] at ignored ⊢
  rw [← Nat.add_sub_of_le le, pow_add, pow_mul, ignored, one_pow]

/-- The opposite of one is in the range of a generator, but only the lowest bit tells. -/
theorem ignores_of_opposite (opposite : p.h.value = p.field.modulus - 1) (positive : 0 < j) :
    p.Ignores j := by
  have minus : p.hClass = -1 := by
    have one : 1 ≤ p.field.modulus := Nat.le_of_lt p.field.two_le_modulus
    rw [hClass, toZMod, opposite, Nat.cast_sub one, Nat.cast_one, ZMod.natCast_self, zero_sub]
  have square : p.Ignores 1 := by
    rw [ignores_iff, minus, pow_one, neg_one_sq]
  exact square.of_le positive

end Parameters

namespace Coin

variable {p : Parameters} {layout : Layout} {coin : Coin} {y : Residue} {j : ℕ}

/-- The verdict on a coin with a flipped bit. -/
theorem check_flip [Fact p.field.modulus.Prime] (accepted : Layout.ofShape p.shape = .ok layout)
    (short : coin.randomness.value < 2 ^ p.serialSize) (below : j < p.serialSize)
    (contained : p.field.Contains y) (nonzero : y.value ≠ 0) :
    Spend.check p (.onLayout p layout) ⟨coin.toWitness.flip j, y⟩
      = if p.Ignores j then .ok () else .refuse (.check (.commitment layout.lastCell)) := by
  have cell := (Layout.describes_of_ofShape accepted).lastCell
  have claimed := Coin.bitSum_toWitness short
  have opened : p.g.value ^ coin.serial.value
          * p.h.value ^ bitSum (coin.toWitness.flip j).bit p.serialSize
        ≡ p.g.value ^ coin.serial.value * p.h.value ^ coin.randomness.value [MOD p.field.modulus]
      ↔ p.Ignores j := by
    rw [Spend.committed_modEq_iff, ofZMod_inj, mul_right_inj' (pow_ne_zero _ p.gClass_ne_zero),
      ← claimed, pow_bitSum_flip_iff p.hClass_ne_zero coin.toWitness below, Parameters.ignores_iff]
  have narrow : ¬2 ^ p.serialSize ≤ (coin.toWitness.flip j).randomness.value :=
    Nat.not_le.mpr short
  rw [Spend.check_onLayout accepted, Spend.verdict, if_neg (not_not_intro rfl), cell]
  dsimp only
  rw [if_neg narrow, if_neg (not_not_intro contained), if_neg nonzero]
  exact if_congr opened rfl rfl

/-- The commitment depends on all bits exactly if it depends on the highest one. -/
theorem refuses_flips_iff [Fact p.field.modulus.Prime]
    (accepted : Layout.ofShape p.shape = .ok layout)
    (short : coin.randomness.value < 2 ^ p.serialSize)
    (contained : p.field.Contains y) (nonzero : y.value ≠ 0) :
    (∀ j < p.serialSize, Spend.check p (.onLayout p layout) ⟨coin.toWitness.flip j, y⟩
        = .refuse (.check (.commitment layout.lastCell)))
      ↔ ¬p.Ignores (p.serialSize - 1) := by
  have size : layout.serialSize = p.serialSize := (Layout.describes_of_ofShape accepted).serialSize
  have long := layout.three_le_serialSize
  constructor
  · intro refused ignored
    have highest : p.serialSize - 1 < p.serialSize := by omega
    have passed := check_flip accepted short highest contained nonzero
    rw [if_pos ignored, refused _ highest] at passed
    cases passed
  · intro tells j below
    rw [check_flip accepted short below contained nonzero]
    exact if_neg fun ignored => tells (ignored.of_le (Nat.le_sub_one_of_lt below))

end Coin

/-- A coin with one flipped bit is refused because the last product does not open its commitment,
    unless the power of the second generator that the bit stands for is one: then it passes. The
    lowest bit stands for the generator itself, which is not one. -/
theorem check_flip_eq {p : Parameters} (prime : p.field.modulus.Prime) {system : LinearSystem}
    (built : LinearSystem.ofParameters p = .ok system) {coin : Coin}
    (made : Coin.ofResidues p coin.serial coin.randomness = .ok coin) {y : Residue}
    (contained : p.field.Contains y) (nonzero : y.value ≠ 0) :
    (∀ j < p.serialSize, Spend.check p system ⟨coin.toWitness.flip j, y⟩
        = if p.h.value ^ 2 ^ j ≡ 1 [MOD p.field.modulus] then .ok ()
          else .refuse (.check (.commitment system.layout.lastCell))) ∧
      Spend.check p system ⟨coin.toWitness.flip 0, y⟩
        = .refuse (.check (.commitment system.layout.lastCell)) := by
  have : Fact p.field.modulus.Prime := ⟨prime⟩
  obtain ⟨layout, accepted, rfl⟩ := LinearSystem.ofParameters_eq_ok_iff.mp built
  obtain ⟨-, -, short, -⟩ := Coin.ofResidues_eq_ok_iff.mp made
  have size : layout.serialSize = p.serialSize := (Layout.describes_of_ofShape accepted).serialSize
  have long := layout.three_le_serialSize
  refine ⟨fun j below => Coin.check_flip accepted short below contained nonzero, ?_⟩
  rw [Coin.check_flip accepted short (by omega) contained nonzero]
  exact if_neg p.not_ignores_zero

/-- `Parameters.seven` with the opposite of one as second generator. -/
def Parameters.opposite : Parameters :=
  { Parameters.seven with h := ⟨7, 6, by decide⟩, isGenerator_h := ⟨rfl, by decide⟩ }

theorem ofParameters_opposite :
    LinearSystem.ofParameters .opposite = .ok (.onLayout .opposite .seven) :=
  LinearSystem.ofParameters_eq_ok_iff.mpr ⟨.seven, by decide, rfl⟩

/-- With the generator five the second bit tells, with the generator six it does not. -/
theorem check_flip_eq_opposite :
    let coin : Coin := ⟨Parameters.seven.field.residue 2, Parameters.seven.field.residue 4⟩
    let y := Parameters.seven.field.residue 1
    Spend.check .seven (.onLayout .seven .seven) ⟨coin.toWitness.flip 1, y⟩
        = .refuse (.check (.commitment ⟨1, 1⟩)) ∧
      Spend.check .opposite (.onLayout .opposite .seven) ⟨coin.toWitness.flip 1, y⟩ = .ok () := by
  intro coin y
  have prime : Nat.Prime 7 := Nat.prime_seven
  refine ⟨?_, ?_⟩
  · have made : Coin.ofResidues .seven coin.serial coin.randomness = .ok coin := by decide
    have contained : Parameters.seven.field.Contains y := rfl
    have verdict := check_flip_eq prime ofParameters_seven made contained (by decide)
    exact (verdict.1 1 (by decide)).trans (if_neg (by decide))
  · have made : Coin.ofResidues .opposite coin.serial coin.randomness = .ok coin := by decide
    have contained : Parameters.opposite.field.Contains y := rfl
    have verdict := check_flip_eq prime ofParameters_opposite made contained (by decide)
    exact (verdict.1 1 (by decide)).trans (if_pos (by decide))

/-- Not every flipped bit is refused, whatever the generators in the range are. -/
theorem not_all_flips_refused :
    ¬∀ (p : Parameters) (system : LinearSystem) (coin : Coin) (y : Residue),
      p.field.modulus.Prime → LinearSystem.ofParameters p = .ok system →
      Coin.ofResidues p coin.serial coin.randomness = .ok coin →
      p.field.Contains y → y.value ≠ 0 →
      ∀ j < p.serialSize, Spend.check p system ⟨coin.toWitness.flip j, y⟩
        = .refuse (.check (.commitment system.layout.lastCell)) := by
  intro all
  have prime : Nat.Prime Parameters.opposite.field.modulus := Nat.prime_seven
  have : Fact (Nat.Prime Parameters.opposite.field.modulus) := ⟨prime⟩
  let coin : Coin := ⟨Parameters.opposite.field.residue 2, Parameters.opposite.field.residue 4⟩
  let y := Parameters.opposite.field.residue 1
  have refused := all .opposite _ coin y prime ofParameters_opposite (by decide) rfl (by decide)
  have accepted : Layout.ofShape Parameters.opposite.shape = .ok .seven := by decide
  have short : coin.randomness.value < 2 ^ Parameters.opposite.serialSize := by decide
  have contained : Parameters.opposite.field.Contains y := rfl
  have tells := (Coin.refuses_flips_iff accepted short contained (by decide)).mp refused
  exact tells (Parameters.ignores_of_opposite rfl (by decide))

end CoinSpend
