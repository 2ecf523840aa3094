import CoinSpend.Challenge
import CoinSpend.Proofs.Residuals

/-!
# The tables of powers of a challenge
-/

namespace CoinSpend

open Residue

theorem sum_map_range {M : Type} [AddCommMonoid M] (n : ℕ) (f : ℕ → M) :
    ((List.range n).map f).sum = ∑ i ∈ Finset.range n, f i := by
  induction n with
  | zero => simp
  | succ n ih => rw [List.sum_range_succ, ih, Finset.sum_range_succ]

/-- A sum over the positions of a grid, row by row. -/
theorem sum_range_mul {M : Type} [AddCommMonoid M] (rows columns : ℕ) (f : ℕ → M) :
    ∑ i ∈ Finset.range (rows * columns), f i
      = ∑ m ∈ Finset.range rows, ∑ col ∈ Finset.range columns, f (m * columns + col) := by
  induction rows with
  | zero => simp
  | succ rows ih => rw [Nat.succ_mul, Finset.sum_range_add, ih, Finset.sum_range_succ]

/-- The exponent that the gate at position `i` is weighted with. -/
def gateExponent (rows columns i : ℕ) : ℕ :=
  i / columns + 1 + rows * (i % columns + 1)

theorem gateExponent_row {rows columns m col : ℕ} (h : col < columns) :
    gateExponent rows columns (m * columns + col) = m + 1 + rows * (col + 1) := by
  rw [gateExponent, Cell.row_of_position h, Cell.col_of_position h]

section

variable {q : ℕ} [NeZero q]

theorem geometric_ofZMod (ratio current : ZMod q) (count : ℕ) :
    geometric (ofZMod ratio) count (ofZMod current)
      = .ok ((List.range count).map fun k => ofZMod (current * ratio ^ k)) := by
  induction count generalizing current with
  | zero => rfl
  | succ count ih =>
    rw [geometric, mul_ofZMod, ok_bind, ih, ok_bind, List.range_succ_eq_map, List.map_cons,
      List.map_map, pow_zero, mul_one]
    simp only [pure_eq_ok, Function.comp_def, pow_succ', mul_assoc]

theorem powers_ofZMod (y : ZMod q) (count : ℕ) :
    (ofZMod y).powers count = .ok ((List.range count).map fun k => ofZMod (y ^ k)) := by
  rw [powers, one_ofZMod, geometric_ofZMod]
  simp only [one_mul]

/-- The power that a challenge is inverted by. -/
def inversePower (y : ZMod q) : ZMod q :=
  y ^ (q - 2)

theorem inverse?_ofZMod {y : ZMod q} (nonzero : y ≠ 0) :
    (ofZMod y).inverse? = some (ofZMod (inversePower y)) := by
  rw [inverse?, isZero_ofZMod, decide_eq_false nonzero, pow_ofZMod]
  rfl

theorem negativePowers_ofZMod {y : ZMod q} (nonzero : y ≠ 0) (rows count : ℕ) :
    (ofZMod y).negativePowers rows count
      = .ok ((List.range count).map fun k => ofZMod ((inversePower y ^ rows) ^ (k + 1))) := by
  rw [negativePowers, inverse?_ofZMod nonzero]
  simp only [pow_ofZMod, geometric_ofZMod, ← pow_succ']
  rfl

theorem negativePowers_zero (rows count : ℕ) :
    (ofZMod (0 : ZMod q)).negativePowers rows count = .error (.refused .degenerate) := by
  rw [negativePowers, inverse?, isZero_ofZMod, decide_eq_true rfl]
  rfl

theorem columnPowersOf_eq_ok (y : ZMod q) {rows columns count : ℕ} (positive : 0 < rows)
    (countable : rows * columns < Count.limit) (long : rows * columns < count) :
    columnPowersOf ((List.range count).map fun k => ofZMod (y ^ k)).toArray rows columns
      = .ok ((List.range columns).map fun col => ofZMod (y ^ (rows * (col + 1)))) := by
  have tabled :
      ¬((List.range count).map fun k => ofZMod (y ^ k)).toArray.size ≤ rows * columns := by
    simpa using long
  rw [columnPowersOf, Count.mul_eq_ok countable, ok_bind, if_neg tabled]
  apply mapM_eq_ok
  intro col member
  have within : rows * (col + 1) ≤ rows * columns :=
    Nat.mul_le_mul_left rows (List.mem_range.mp member)
  have next : col + 1 ≤ rows * (col + 1) := Nat.le_mul_of_pos_left _ positive
  rw [Count.add_eq_ok (by omega), ok_bind, Count.mul_eq_ok (by omega), ok_bind,
    entry_range _ (Nat.lt_of_le_of_lt within long)]

end

end CoinSpend
