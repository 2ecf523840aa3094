import CoinSpend.PrimeField
import CoinSpend.Proofs.Attempts
import CoinSpend.Proofs.BinaryPowers
import Mathlib.Data.ZMod.Basic

/-!
# Residues as classes of integers

A residue with the modulus `q` is given by its class in `ZMod q`, and every operation on residues
of one field answers with the residue of the class that the ring operation gives. `ofZMod` is the
residue of a class, `toZMod` the class of a residue.
-/

namespace CoinSpend

namespace Residue

variable {q : ℕ} [NeZero q]

/-- The residue of a class. -/
def ofZMod (z : ZMod q) : Residue :=
  ⟨q, z.val, ZMod.val_lt z⟩

/-- The class modulo `q` of the representative of a residue. -/
def toZMod (q : ℕ) (x : Residue) : ZMod q :=
  x.value

@[simp] theorem modulus_ofZMod (z : ZMod q) : (ofZMod z).modulus = q := rfl

@[simp] theorem value_ofZMod (z : ZMod q) : (ofZMod z).value = z.val := rfl

@[simp] theorem toZMod_ofZMod (z : ZMod q) : (ofZMod z).toZMod q = z :=
  ZMod.natCast_zmod_val z

/-- A residue is known by its modulus and the class of its representative. -/
theorem eq_ofZMod_iff {x : Residue} {z : ZMod q} :
    x = ofZMod z ↔ x.modulus = q ∧ x.toZMod q = z := by
  constructor
  · rintro rfl
    exact ⟨rfl, toZMod_ofZMod z⟩
  · rintro ⟨rfl, rfl⟩
    have value : x.value = (x.toZMod x.modulus).val :=
      (ZMod.val_cast_of_lt x.value_lt).symm
    cases x
    simp only [ofZMod, mk.injEq, true_and]
    exact value

theorem ofZMod_toZMod {x : Residue} (h : x.modulus = q) : ofZMod (x.toZMod q) = x :=
  (eq_ofZMod_iff.mpr ⟨h, rfl⟩).symm

theorem exists_eq_ofZMod {x : Residue} (h : x.modulus = q) : ∃ z : ZMod q, x = ofZMod z :=
  ⟨x.toZMod q, (ofZMod_toZMod h).symm⟩

@[simp] theorem ofZMod_inj {z w : ZMod q} : ofZMod z = ofZMod w ↔ z = w := by
  rw [eq_ofZMod_iff, toZMod_ofZMod]
  exact and_iff_right rfl

theorem toZMod_eq_zero_iff {x : Residue} (h : x.modulus = q) : x.toZMod q = 0 ↔ x.value = 0 := by
  have value : x.value = (x.toZMod q).val := congrArg Residue.value (ofZMod_toZMod h).symm
  rw [value, ZMod.val_eq_zero]

theorem sameField_ofZMod (z w : ZMod q) : (ofZMod z).SameField (ofZMod w) := rfl

/-! ## Operations -/

@[simp] theorem embed_ofZMod (z : ZMod q) (n : ℕ) : (ofZMod z).embed n = ofZMod (n : ZMod q) := by
  rw [eq_ofZMod_iff]
  exact ⟨rfl, ZMod.natCast_mod n q⟩

@[simp] theorem zero_ofZMod (z : ZMod q) : (ofZMod z).zero = ofZMod (0 : ZMod q) := by
  rw [eq_ofZMod_iff]
  exact ⟨rfl, Nat.cast_zero⟩

@[simp] theorem one_ofZMod (z : ZMod q) : (ofZMod z).one = ofZMod (1 : ZMod q) := by
  rw [one, embed_ofZMod, Nat.cast_one]

@[simp] theorem add_ofZMod (z w : ZMod q) :
    (ofZMod z).add (ofZMod w) = .ok (ofZMod (z + w)) := by
  rw [add, dif_pos (sameField_ofZMod z w), Except.ok.injEq, eq_ofZMod_iff]
  refine ⟨rfl, ?_⟩
  simp only [toZMod, addSame]
  split
  case isTrue => simp
  case isFalse large =>
    rw [Nat.cast_sub (Nat.le_of_not_lt large)]
    simp

@[simp] theorem sub_ofZMod (z w : ZMod q) :
    (ofZMod z).sub (ofZMod w) = .ok (ofZMod (z - w)) := by
  rw [sub, dif_pos (sameField_ofZMod z w), Except.ok.injEq, eq_ofZMod_iff]
  refine ⟨rfl, ?_⟩
  have below : (ofZMod w).value ≤ (ofZMod z).value + (ofZMod z).modulus :=
    Nat.le_add_left_of_le (ZMod.val_lt w).le
  simp only [toZMod, subSame]
  split
  case isTrue le =>
    rw [Nat.cast_sub le]
    simp
  case isFalse =>
    rw [Nat.cast_sub below]
    simp

@[simp] theorem mul_ofZMod (z w : ZMod q) :
    (ofZMod z).mul (ofZMod w) = .ok (ofZMod (z * w)) := by
  rw [mul, if_pos (sameField_ofZMod z w), embed_ofZMod]
  simp

@[simp] theorem neg_ofZMod (z : ZMod q) : (ofZMod z).neg = ofZMod (-z) := by
  have below := ZMod.val_lt z
  rw [eq_ofZMod_iff]
  unfold neg
  split
  case isTrue zero =>
    have : z = 0 := (ZMod.val_eq_zero z).mp zero
    simp [this]
  case isFalse =>
    refine ⟨rfl, ?_⟩
    simp [toZMod, Nat.cast_sub below.le]

@[simp] theorem square_ofZMod (z : ZMod q) : (ofZMod z).square = ofZMod (z ^ 2) := by
  rw [square, embed_ofZMod]
  simp [pow_two]

@[simp] theorem pow_ofZMod (z : ZMod q) (exponent : ℕ) :
    (ofZMod z).pow exponent = ofZMod (z ^ exponent) := by
  rw [eq_ofZMod_iff]
  refine ⟨rfl, ?_⟩
  simp [toZMod, pow, powMod_eq _ _ q (NeZero.pos q)]

theorem isZero_ofZMod (z : ZMod q) : (ofZMod z).isZero = decide (z = 0) := by
  simp [isZero, Bool.beq_eq_decide_eq]

theorem squares_ofZMod (z : ZMod q) (count : ℕ) :
    (ofZMod z).squares count = (List.range count).map fun k => ofZMod (z ^ 2 ^ k) := by
  induction count generalizing z with
  | zero => rfl
  | succ count ih =>
    rw [squares, square_ofZMod, ih, List.range_succ_eq_map, List.map_cons, List.map_map]
    congr 1
    · simp
    · apply List.map_congr_left
      intro k _
      rw [Function.comp_apply, ← pow_mul, ← pow_succ']

/-- A product of two residues has an answer only if they have one modulus. -/
theorem sameField_of_mul_eq_ok {x y z : Residue} (h : x.mul y = .ok z) : x.modulus = y.modulus := by
  by_contra different
  have foreign : ¬x.SameField y := different
  rw [mul, if_neg foreign] at h
  cases h

/-! ## Products of two powers -/

private theorem jointPowerBits_ofZMod (g h : ZMod q) (pairs : List (Bool × Bool)) :
    jointPowerBits (ofZMod g) (ofZMod h) (ofZMod (g * h)) pairs
      = .ok (ofZMod (g ^ ofBits (pairs.map Prod.fst) * h ^ ofBits (pairs.map Prod.snd))) := by
  induction pairs with
  | nil => simp [jointPowerBits, ofBits_nil]
  | cons pair later ih =>
    obtain ⟨a, b⟩ := pair
    rw [jointPowerBits, ih, ok_bind]
    simp only [square_ofZMod, List.map_cons, ofBits_cons]
    cases a <;> cases b <;> simp <;> ring

theorem jointPower_ofZMod (g h : ZMod q) (a b : ℕ) :
    (ofZMod g).jointPower a (ofZMod h) b = .ok (ofZMod (g ^ a * h ^ b)) := by
  have length (n : ℕ) : (lowBits (max (bitLength a) (bitLength b)) n).length
      = max (bitLength a) (bitLength b) := by
    simp [lowBits, length_lowDigits]
  rw [jointPower, mul_ofZMod, ok_bind]
  simp only [jointPowerBits_ofZMod]
  rw [List.map_fst_zip (by rw [length, length]), List.map_snd_zip (by rw [length, length]),
    ofBits_lowBits_of_le (Nat.le_max_left _ _), ofBits_lowBits_of_le (Nat.le_max_right _ _)]

end Residue

end CoinSpend
