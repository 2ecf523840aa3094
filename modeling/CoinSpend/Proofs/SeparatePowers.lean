import CoinSpend.Proofs.AggregationSoundness

/-!
# The powers of the relations

Every relation that is folded has an exponent of its own. The exponents of the gates go up column by
column, those of the constraints follow at once, and no number in between is left out. All of them
are in the table of powers, and so are the two exponents that a gate's is the sum of, which are
read one by one.
-/

namespace CoinSpend

open Residue

namespace Relation

/-- The exponent of the challenge that a relation is weighted with. -/
def exponent (layout : Layout) : Relation → ℕ
  | gate cell => cell.row + 1 + layout.rows * (cell.col + 1)
  | constraint index => layout.linearOffset + index

/-- The weight of a relation, read from the powers of the challenge and from those selected for the
    columns. -/
def weight (layout : Layout) (powers : Array Residue) (columnPowers : List Residue) :
    Relation → Checked Residue
  | gate cell => do
      (← entry powers (cell.row + 1)).mul (← entry columnPowers.toArray cell.col)
  | constraint index => do
      entry powers (← Count.add layout.linearOffset index)

variable {layout : Layout} {relation : Relation}

/-! ## The exponents in their order -/

theorem exponent_ofPower {k : ℕ} (below : k < powerCount layout) :
    (ofPower layout k).exponent layout = layout.rows + 1 + k := by
  revert k
  apply forall_powers
  case gate =>
    intro m row col column
    have inside : (⟨m, col⟩ : Cell).Inside layout.rows layout.columns := ⟨row, column⟩
    rw [ofPower_gate inside, exponent]
    ring
  case constraint =>
    intro i _
    rw [ofPower_constraint, exponent, Layout.linearOffset]
    ring

theorem folded_ofPower {k : ℕ} (below : k < powerCount layout) :
    (ofPower layout k).Folded layout := by
  revert k
  apply forall_powers
  case gate =>
    intro m row col column
    have inside : (⟨m, col⟩ : Cell).Inside layout.rows layout.columns := ⟨row, column⟩
    rw [ofPower_gate inside]
    exact inside
  case constraint =>
    intro i below
    rw [ofPower_constraint]
    exact below

theorem lowest_add_powerCount (layout : Layout) :
    layout.rows + 1 + powerCount layout = layout.powerCount := by
  rw [powerCount, Layout.powerCount, Layout.linearOffset]
  ring

theorem exponent_lt (folded : relation.Folded layout) :
    relation.exponent layout < layout.powerCount := by
  obtain ⟨k, below, rfl⟩ := exists_ofPower_of_folded folded
  rw [exponent_ofPower below, ← lowest_add_powerCount]
  exact Nat.add_lt_add_left below _

theorem bijOn_exponent (layout : Layout) :
    Set.BijOn (exponent layout) {relation | relation.Folded layout}
      (Set.Ico (layout.rows + 1) layout.powerCount) := by
  refine ⟨?_, ?_, ?_⟩
  · intro relation folded
    refine ⟨?_, exponent_lt folded⟩
    obtain ⟨k, below, rfl⟩ := exists_ofPower_of_folded folded
    rw [exponent_ofPower below]
    exact Nat.le_add_right _ k
  · intro relation folded other folded' same
    obtain ⟨k, below, rfl⟩ := exists_ofPower_of_folded folded
    obtain ⟨l, below', rfl⟩ := exists_ofPower_of_folded folded'
    rw [exponent_ofPower below, exponent_ofPower below'] at same
    exact congrArg (ofPower layout) (Nat.add_left_cancel same)
  · rintro e ⟨low, high⟩
    obtain ⟨k, rfl⟩ := Nat.exists_eq_add_of_le low
    rw [← lowest_add_powerCount] at high
    have below : k < powerCount layout := Nat.lt_of_add_lt_add_left high
    exact ⟨_, folded_ofPower below, exponent_ofPower below⟩

/-! ## The exponents that are read -/

theorem row_lt_powerCount {m : ℕ} (row : m < layout.rows) : m + 1 < layout.powerCount := by
  have cells := layout.cells_lt_powerCount
  omega

theorem column_lt_powerCount {col : ℕ} (column : col < layout.columns) :
    layout.rows * (col + 1) < layout.powerCount := by
  have cells := layout.cells_lt_powerCount
  have within : layout.rows * (col + 1) ≤ layout.rows * layout.columns :=
    Nat.mul_le_mul_left layout.rows column
  omega

theorem weight_eq_ok {q : ℕ} [NeZero q] (y : ZMod q) (folded : relation.Folded layout) :
    relation.weight layout ((List.range layout.powerCount).map fun k => ofZMod (y ^ k)).toArray
        ((List.range layout.columns).map fun col => ofZMod (y ^ (layout.rows * (col + 1))))
      = .ok (ofZMod (y ^ relation.exponent layout)) := by
  cases relation with
  | gate cell =>
    rw [weight, entry_range _ (row_lt_powerCount folded.1), ok_bind, entry_range _ folded.2,
      ok_bind, mul_ofZMod, ← pow_add]
    rfl
  | constraint index =>
    have tabled : layout.linearOffset + index < layout.powerCount :=
      layout.linearOffset_add_lt folded
    have counted : Count.add layout.linearOffset index = .ok (layout.linearOffset + index) :=
      Count.add_eq_ok (Nat.lt_trans tabled layout.powerCount_lt_limit)
    rw [weight, counted, ok_bind, entry_range _ tabled]
    rfl

/-- Every challenge has tables that give each relation the power with its exponent. -/
theorem exists_tables (layout : Layout) (y : Residue) :
    ∃ powers columnPowers,
      y.powers layout.powerCount = .ok powers ∧
      columnPowersOf powers.toArray layout.rows layout.columns = .ok columnPowers ∧
      ∀ relation : Relation, relation.Folded layout →
        relation.weight layout powers.toArray columnPowers
          = .ok (y.pow (relation.exponent layout)) := by
  have : NeZero y.modulus := ⟨y.modulus_pos.ne'⟩
  obtain ⟨z, same⟩ := exists_eq_ofZMod (x := y) rfl
  have long : layout.rows * layout.columns < layout.powerCount :=
    Nat.lt_of_le_of_lt (Nat.le_add_right _ _) layout.cells_lt_powerCount
  rw [same]
  refine ⟨_, _, powers_ofZMod z _,
    columnPowersOf_eq_ok z layout.rows_pos layout.cells_lt_limit long, ?_⟩
  intro relation folded
  rw [weight_eq_ok z folded, pow_ofZMod]

end Relation

/-- The exponents of the relations of a layout are the numbers from one above the rows on to the
    last power of the table, each of them once. All of them are in the table, and so are the
    exponents of the rows and of the columns that those of the gates are read from. -/
theorem exponents_separate (layout : Layout) :
    let relations := {relation : Relation | relation.Folded layout}
    Set.BijOn (Relation.exponent layout) relations
      (Set.Icc (layout.rows + 1) (layout.linearOffset + 4 * layout.serialSize - 3)) ∧
    (∀ relation ∈ relations, relation.exponent layout < layout.powerCount) ∧
    (∀ m < layout.rows, m + 1 < layout.powerCount) ∧
    (∀ col < layout.columns, layout.rows * (col + 1) < layout.powerCount) ∧
    ∀ y : Residue, ∃ powers columnPowers,
      y.powers layout.powerCount = .ok powers ∧
      columnPowersOf powers.toArray layout.rows layout.columns = .ok columnPowers ∧
      ∀ relation ∈ relations, relation.weight layout powers.toArray columnPowers
        = .ok (y.pow (relation.exponent layout)) := by
  intro relations
  have last : Set.Icc (layout.rows + 1) (layout.linearOffset + 4 * layout.serialSize - 3)
      = Set.Ico (layout.rows + 1) layout.powerCount := by
    have long := layout.three_le_serialSize
    ext e
    rw [Set.mem_Icc, Set.mem_Ico, Layout.powerCount, Layout.checkedCount]
    omega
  rw [last]
  exact ⟨Relation.bijOn_exponent layout, fun _ => Relation.exponent_lt,
    fun _ => Relation.row_lt_powerCount, fun _ => Relation.column_lt_powerCount,
    Relation.exists_tables layout⟩

/-- Six gates and ten constraints are weighted with the third to the eighteenth power. -/
theorem exponents_separate_seven :
    Set.BijOn (Relation.exponent .seven) {relation : Relation | relation.Folded .seven}
      (Set.Icc 3 18) ∧
    Relation.exponent .seven (.gate ⟨1, 2⟩) = 8 ∧ Relation.exponent .seven (.constraint 0) = 9 :=
  ⟨(exponents_separate .seven).1, rfl, rfl⟩

end CoinSpend
