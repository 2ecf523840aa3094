import CoinSpend.Proofs.AggregatedResidual
import CoinSpend.Proofs.Extraction
import CoinSpend.Proofs.Inverses

/-!
# The tables of an aggregation

An aggregation keeps three tables for its challenge, which are made in three ways: the powers one
after the other, the weights of the columns by selecting powers, and the negative powers from the
inverse of the challenge. Over a field the entries of the last two tables with the same index
cancel, and the negative powers go on over the columns of padding.
-/

namespace CoinSpend

open Residue

/-- The number of powers that are tabled for a circuit of this shape. -/
def Shape.tabledPowers (shape : Shape) : ℕ :=
  shape.rows.toNat * (shape.columns.toNat + 1) + 1 + (4 * shape.serialSize.toNat - 2)

/-- The tables of the aggregation are those for the challenge `y`: its powers from the zeroth one
    on, the powers of the columns, and as many inverses of such powers as there are columns with
    those of the padding. -/
structure Aggregation.Tabulates (aggregation : Aggregation) (p : Parameters) (y : Residue) :
    Prop where
  size_powers : aggregation.powers.size = p.shape.tabledPowers
  powers : ∀ k < p.shape.tabledPowers,
    aggregation.powers[k]? = some (p.field.residue (y.value ^ k))
  length_columnPowers : aggregation.columnPowers.length = p.shape.columns.toNat
  columnPowers : ∀ col < p.shape.columns.toNat, aggregation.columnPowers[col]?
    = some (p.field.residue (y.value ^ (p.shape.rows.toNat * (col + 1))))
  length_negativePowers : aggregation.negativePowers.length
    = p.shape.columns.toNat + p.shape.pads.toNat
  negativePowers : ∀ k < p.shape.columns.toNat + p.shape.pads.toNat,
    ∃ inverse, aggregation.negativePowers[k]? = some inverse ∧
      inverse.mul (p.field.residue (y.value ^ (p.shape.rows.toNat * (k + 1)))) = .ok p.field.one
  cancel : ∀ col < p.shape.columns.toNat,
    ∃ power inverse, aggregation.columnPowers[col]? = some power ∧
      aggregation.negativePowers[col]? = some inverse ∧ power.mul inverse = .ok p.field.one

theorem Layout.Describes.powerCount {layout : Layout} {shape : Shape}
    (described : layout.Describes shape) : layout.powerCount = shape.tabledPowers := by
  rw [Layout.powerCount, Layout.linearOffset, Layout.checkedCount, Shape.tabledPowers,
    described.rows, described.columns, described.serialSize]

section

variable {q : ℕ} [Fact q.Prime] {z : ZMod q}

/-- The negative power of a column inverts its power, on either side. -/
theorem negativePower_mul (nonzero : z ≠ 0) (rows k : ℕ) :
    let power := z ^ (rows * k)
    let negative := (inversePower z ^ rows) ^ k
    (ofZMod negative).mul (ofZMod power) = .ok (ofZMod (1 : ZMod q)) ∧
      (ofZMod power).mul (ofZMod negative) = .ok (ofZMod (1 : ZMod q)) := by
  intro power negative
  have notZero : power ≠ 0 := pow_ne_zero _ nonzero
  have inverse : negative = power⁻¹ := by
    rw [← inv_pow, pow_mul, ← inversePower_eq_inv nonzero]
  rw [mul_ofZMod, mul_ofZMod, inverse, inv_mul_cancel₀ notZero, mul_inv_cancel₀ notZero]
  exact ⟨rfl, rfl⟩

end

theorem tabulates_ofClass {p : Parameters} [Fact p.field.modulus.Prime] {layout : Layout}
    {y : Residue} (described : layout.Describes p.shape) (G : ZMod p.field.modulus)
    (nonzero : y.toZMod p.field.modulus ≠ 0) :
    (Aggregation.ofClass (.onLayout p layout) G p.shape.pads.toNat
      (y.toZMod p.field.modulus)).Tabulates p y := by
  -- The lengths of the three tables, as the layout and as the shape count them.
  have count := described.powerCount
  have columns := described.columns
  have rows := described.rows
  constructor
  case size_powers =>
    rw [← count]
    exact List.size_toArray.trans ((List.length_map _).trans List.length_range)
  case powers =>
    intro k below
    rw [← count] at below
    rw [p.field.residue_value_pow]
    exact List.getElem?_toArray.trans (getElem?_map_range _ below)
  case length_columnPowers =>
    rw [← columns]
    exact (List.length_map _).trans List.length_range
  case columnPowers =>
    intro col below
    rw [← columns] at below
    rw [p.field.residue_value_pow, ← rows]
    exact getElem?_map_range _ below
  case length_negativePowers =>
    rw [← columns]
    exact (List.length_map _).trans List.length_range
  case negativePowers =>
    intro k below
    rw [← columns] at below
    rw [p.field.residue_value_pow, p.field.one_eq, ← rows]
    exact ⟨_, getElem?_map_range _ below, (negativePower_mul nonzero layout.rows (k + 1)).1⟩
  case cancel =>
    intro col below
    rw [← columns] at below
    have padded : col < layout.columns + p.shape.pads.toNat := Nat.lt_add_right _ below
    rw [p.field.one_eq]
    exact ⟨_, _, getElem?_map_range _ below, getElem?_map_range _ padded,
      (negativePower_mul nonzero layout.rows (col + 1)).2⟩

/-- Over a field every challenge other than zero is aggregated, with the tables of its powers, of
    the powers of the columns and of their inverses. -/
theorem ofChallenge_tabulates {p : Parameters} (prime : p.field.modulus.Prime)
    {system : LinearSystem} (built : LinearSystem.ofParameters p = .ok system) (serial : Residue)
    {y : Residue} (contained : p.field.Contains y) (nonzero : y.value ≠ 0) :
    ∃ aggregation,
      Aggregation.ofChallenge y (system.bind serial) p.shape.pads.toNat = .ok aggregation ∧
      aggregation.Tabulates p y := by
  have : Fact p.field.modulus.Prime := ⟨prime⟩
  obtain ⟨layout, accepted, rfl⟩ := LinearSystem.ofParameters_eq_ok_iff.mp built
  have described := Layout.describes_of_ofShape accepted
  have challenge : y.toZMod p.field.modulus ≠ 0 := mt (toZMod_eq_zero_iff contained).mp nonzero
  have made := Aggregation.ofChallenge_eq_ok (LinearSystem.serialPower_bind p layout serial)
    (LinearSystem.fits_onLayout p layout) described.padded_lt_limit challenge
  rw [ofZMod_toZMod contained] at made
  exact ⟨_, made, tabulates_ofClass described _ challenge⟩

/-- For three columns and two rows the last power is the eighteenth, and the negative power of the
    column of padding inverts the eighth power. -/
theorem ofChallenge_tabulates_seven :
    let field := Parameters.seven.field
    ∃ aggregation,
      Aggregation.ofChallenge (field.residue 3)
        ((LinearSystem.onLayout .seven .seven).bind (field.residue 2)) 1 = .ok aggregation ∧
      aggregation.powers.size = 19 ∧
      aggregation.powers[18]? = some (field.residue (3 ^ 18)) ∧
      aggregation.columnPowers[2]? = some (field.residue (3 ^ 6)) ∧
      ∃ inverse, aggregation.negativePowers[3]? = some inverse ∧
        inverse.mul (field.residue (3 ^ 8)) = .ok field.one := by
  intro field
  have prime : Nat.Prime Parameters.seven.field.modulus := Nat.prime_seven
  have contained : field.Contains (field.residue 3) := rfl
  obtain ⟨aggregation, made, tables⟩ :=
    ofChallenge_tabulates prime ofParameters_seven (field.residue 2) contained (by decide)
  exact ⟨aggregation, made, tables.size_powers, tables.powers 18 (by decide),
    tables.columnPowers 2 (by decide), tables.negativePowers 3 (by decide)⟩

end CoinSpend
