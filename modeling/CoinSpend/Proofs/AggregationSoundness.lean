import CoinSpend.Proofs.AggregatedResidual
import CoinSpend.Proofs.Extraction
import Mathlib.Algebra.Polynomial.Roots
import Mathlib.Data.Set.Card

/-!
# Soundness of the folded equation

Every relation of a circuit is weighted with a power of the challenge of its own. Apart from a
common factor the folded equation is a polynomial in the challenge whose coefficients are the
residuals of the relations, so that few challenges hide that a relation is violated, and none hides
a single one.
-/

namespace CoinSpend

open Residue

/-- A relation that is folded: the gate of a cell or a checked constraint. -/
inductive Relation where
  | gate (cell : Cell)
  | constraint (index : ℕ)

/-- Whether the wires violate a relation. -/
def BoundSystem.Violated (bound : BoundSystem) (wires : Wires) : Relation → Prop
  | .gate cell => ∃ gate, wires.gates.get? cell = some gate ∧ gate.a.mul gate.b ≠ .ok gate.c
  | .constraint index => index < bound.system.checked.length ∧
      ∃ sum constant, bound.evaluate index wires = .ok sum ∧
        bound.constant index = .ok constant ∧ sum ≠ constant

/-- Whether a challenge gives an aggregation whose check the wires pass. -/
def BoundSystem.Passes (bound : BoundSystem) (pads : ℕ) (wires : Wires) (y : Residue) : Prop :=
  ∃ aggregation, Aggregation.ofChallenge y bound pads = .ok aggregation ∧
    aggregation.check wires = .ok ()

/-! ## Powers of the challenge -/

namespace Relation

/-- The relation with the power number `k`, counted from the lowest one. The gates come first,
    column by column. -/
def ofPower (layout : Layout) (k : ℕ) : Relation :=
  if k < layout.rows * layout.columns then .gate ⟨k % layout.rows, k / layout.rows⟩
  else .constraint (k - layout.rows * layout.columns)

/-- The number of powers that relations are weighted with. -/
def powerCount (layout : Layout) : ℕ :=
  layout.rows * layout.columns + layout.checkedCount

theorem column_position_lt {layout : Layout} {cell : Cell}
    (inside : cell.Inside layout.rows layout.columns) :
    cell.col * layout.rows + cell.row < layout.rows * layout.columns := by
  have transposed : (⟨cell.col, cell.row⟩ : Cell).Inside layout.columns layout.rows :=
    ⟨inside.2, inside.1⟩
  rw [Nat.mul_comm layout.rows]
  exact Cell.position_lt transposed

theorem ofPower_gate {layout : Layout} {cell : Cell}
    (inside : cell.Inside layout.rows layout.columns) :
    ofPower layout (cell.col * layout.rows + cell.row) = .gate cell := by
  rw [ofPower, if_pos (column_position_lt inside), Cell.row_of_position inside.1,
    Cell.col_of_position inside.1]

theorem ofPower_constraint (layout : Layout) (i : ℕ) :
    ofPower layout (layout.rows * layout.columns + i) = .constraint i := by
  rw [ofPower, if_neg (by omega), Nat.add_sub_cancel_left]

/-- The powers in their order: a property of all numbers below `powerCount` is one of the gates,
    column by column, and of the constraints. -/
theorem forall_powers {layout : Layout} {motive : ℕ → Prop}
    (gate : ∀ m < layout.rows, ∀ col < layout.columns, motive (col * layout.rows + m))
    (constraint : ∀ i < layout.checkedCount, motive (layout.rows * layout.columns + i)) :
    ∀ k < powerCount layout, motive k := by
  intro k below
  by_cases ofGate : k < layout.rows * layout.columns
  · rw [Nat.mul_comm] at ofGate
    obtain ⟨column, row⟩ := Cell.inside_ofPosition ofGate
    have number : k / layout.rows * layout.rows + k % layout.rows = k :=
      Nat.div_add_mod' k layout.rows
    rw [← number]
    exact gate _ row _ column
  · obtain ⟨i, rfl⟩ := Nat.exists_eq_add_of_le (Nat.le_of_not_lt ofGate)
    exact constraint i (Nat.lt_of_add_lt_add_left below)

theorem ofPower_inj {layout : Layout} {k l : ℕ} : ofPower layout k = ofPower layout l ↔ k = l := by
  unfold ofPower
  constructor
  · intro same
    split at same
    case isTrue =>
      split at same
      case isTrue =>
        obtain ⟨row, col⟩ := Cell.mk.inj (gate.inj same)
        rw [← Nat.div_add_mod k layout.rows, ← Nat.div_add_mod l layout.rows, row, col]
      case isFalse => cases same
    case isFalse beyond =>
      split at same
      case isTrue => cases same
      case isFalse beyond' =>
        have index := constraint.inj same
        omega
  · rintro rfl
    rfl

/-- Whether a relation is folded for this layout: the gate of one of its cells, or one of its
    checked constraints. -/
def Folded (layout : Layout) : Relation → Prop
  | gate cell => cell.Inside layout.rows layout.columns
  | constraint index => index < layout.checkedCount

theorem exists_ofPower_of_folded {layout : Layout} {relation : Relation}
    (folded : relation.Folded layout) :
    ∃ k < powerCount layout, ofPower layout k = relation := by
  cases relation with
  | gate cell =>
    exact ⟨_, Nat.lt_add_right _ (column_position_lt folded), ofPower_gate folded⟩
  | constraint index =>
    exact ⟨_, Nat.add_lt_add_left folded _, ofPower_constraint layout index⟩

section

variable {q : ℕ} (system : LinearSystem) (G : ZMod q) (V : Wire → ℕ → ZMod q)

/-- What a relation is off by. -/
def residual : Relation → ZMod q
  | gate cell => gateResidual V (cell.position system.layout.columns)
  | constraint index => system.residual G V index

/-- The residual that is weighted with the power number `k`. -/
def coefficient (k : ℕ) : ZMod q :=
  (ofPower system.layout k).residual system G V

theorem coefficient_gate {m col : ℕ} (row : m < system.layout.rows)
    (column : col < system.layout.columns) :
    coefficient system G V (col * system.layout.rows + m)
      = gateResidual V (m * system.layout.columns + col) := by
  have inside : (⟨m, col⟩ : Cell).Inside system.layout.rows system.layout.columns := ⟨row, column⟩
  have weighed : ofPower system.layout (col * system.layout.rows + m) = .gate ⟨m, col⟩ :=
    ofPower_gate inside
  rw [coefficient, weighed]
  rfl

theorem coefficient_constraint (i : ℕ) :
    coefficient system G V (system.layout.rows * system.layout.columns + i)
      = system.residual G V i := by
  rw [coefficient, ofPower_constraint]
  rfl

/-- The residuals of all relations, each times its power. -/
def fold (y : ZMod q) : ZMod q :=
  ∑ k ∈ Finset.range (powerCount system.layout), coefficient system G V k * y ^ k

theorem aggregatedResidual_eq (y : ZMod q) :
    aggregatedResidual system G y V = y ^ (system.layout.rows + 1) * fold system G V y := by
  have gates : ∑ i ∈ Finset.range (system.layout.rows * system.layout.columns),
        gateResidual V i * y ^ gateExponent system.layout.rows system.layout.columns i
      = y ^ (system.layout.rows + 1)
        * ∑ k ∈ Finset.range (system.layout.rows * system.layout.columns),
          coefficient system G V k * y ^ k := by
    -- The positions count the cells row by row, the powers column by column.
    have transposed := sum_range_mul system.layout.columns system.layout.rows fun k =>
      coefficient system G V k * y ^ k
    rw [Nat.mul_comm] at transposed
    rw [transposed, sum_range_mul, Finset.sum_comm, Finset.mul_sum]
    apply Finset.sum_congr rfl
    intro col member
    rw [Finset.mul_sum]
    apply Finset.sum_congr rfl
    intro m member'
    rw [coefficient_gate system G V (Finset.mem_range.mp member') (Finset.mem_range.mp member),
      gateExponent_row (Finset.mem_range.mp member)]
    ring
  have constraints : ∑ i ∈ Finset.range system.layout.checkedCount,
        system.residual G V i * y ^ (system.layout.linearOffset + i)
      = y ^ (system.layout.rows + 1) * ∑ i ∈ Finset.range system.layout.checkedCount,
          coefficient system G V (system.layout.rows * system.layout.columns + i)
            * y ^ (system.layout.rows * system.layout.columns + i) := by
    rw [Finset.mul_sum]
    apply Finset.sum_congr rfl
    intro i _
    rw [coefficient_constraint, Layout.linearOffset]
    ring
  rw [aggregatedResidual, gates, constraints, fold, powerCount, Finset.sum_range_add, mul_add]

end

end Relation

section

variable {K : Type} [Field K] (a : ℕ → K) {n k : ℕ}

/-- The polynomial with the first `n` coefficients `a`. -/
noncomputable def ofCoefficients (n : ℕ) : Polynomial K :=
  ∑ k ∈ Finset.range n, Polynomial.monomial k (a k)

theorem eval_ofCoefficients (y : K) :
    (ofCoefficients a n).eval y = ∑ k ∈ Finset.range n, a k * y ^ k := by
  rw [ofCoefficients, Polynomial.eval_finsetSum]
  simp only [Polynomial.eval_monomial]

theorem ofCoefficients_ne_zero (below : k < n) (nonzero : a k ≠ 0) : ofCoefficients a n ≠ 0 := by
  intro zero
  have here : (ofCoefficients a n).coeff k = a k := by
    rw [ofCoefficients, Polynomial.finsetSum_coeff,
      Finset.sum_eq_single_of_mem k (Finset.mem_range.mpr below)]
    · exact Polynomial.coeff_monomial_same k (a k)
    · intro l _ other
      exact Polynomial.coeff_monomial_of_ne (a l) (Ne.symm other)
  rw [zero, Polynomial.coeff_zero] at here
  exact nonzero here.symm

theorem natDegree_ofCoefficients_le : (ofCoefficients a n).natDegree ≤ n - 1 := by
  apply Polynomial.natDegree_sum_le_of_forall_le
  intro k member
  have below := Finset.mem_range.mp member
  exact (Polynomial.natDegree_monomial_le (a k)).trans (by omega)

/-- Fewer than `n` elements are roots if the coefficients are not all zero. -/
theorem card_roots_le (below : k < n) (nonzero : a k ≠ 0) {roots : Finset K}
    (h : ∀ y ∈ roots, ∑ k ∈ Finset.range n, a k * y ^ k = 0) : roots.card ≤ n - 1 := by
  have polynomial := ofCoefficients_ne_zero a below nonzero
  have subset : roots.val ⊆ (ofCoefficients a n).roots := by
    intro y member
    rw [Polynomial.mem_roots polynomial, Polynomial.IsRoot, eval_ofCoefficients]
    exact h y member
  exact (Polynomial.card_le_degree_of_subset_roots subset).trans (natDegree_ofCoefficients_le a)

/-- No element other than zero is a root if just one coefficient is not zero. -/
theorem sum_ne_zero_of_single (below : k < n) (nonzero : a k ≠ 0)
    (single : ∀ l < n, a l ≠ 0 → l = k) {y : K} (unit : y ≠ 0) :
    ∑ k ∈ Finset.range n, a k * y ^ k ≠ 0 := by
  rw [Finset.sum_eq_single_of_mem k (Finset.mem_range.mpr below)]
  · exact mul_ne_zero nonzero (pow_ne_zero k unit)
  · intro l member other
    have zero : a l = 0 := by
      by_contra nonzero'
      exact other (single l (Finset.mem_range.mp member) nonzero')
    rw [zero, zero_mul]

end

section

variable {q : ℕ} [NeZero q] {bound : BoundSystem}

theorem inside_of_violated {layout : Layout} {V : Wire → ℕ → ZMod q} {cell : Cell}
    (violated : bound.Violated (.ofClasses layout V) (.gate cell)) :
    cell.Inside layout.rows layout.columns := by
  obtain ⟨gate, present, -⟩ := violated
  exact Grid.inside_of_get? present

theorem violated_gate_iff {layout : Layout} {V : Wire → ℕ → ZMod q} {cell : Cell}
    (inside : cell.Inside layout.rows layout.columns) :
    bound.Violated (.ofClasses layout V) (.gate cell)
      ↔ gateResidual V (cell.position layout.columns) ≠ 0 := by
  have here := Wires.get?_ofClasses V inside
  constructor
  · rintro ⟨gate, present, wrong⟩ zero
    obtain rfl := Option.some.inj (here.symm.trans present)
    apply wrong
    simpa [classTriple, gateResidual, sub_eq_zero] using zero
  · intro nonzero
    refine ⟨_, here, ?_⟩
    simpa [classTriple, gateResidual, sub_eq_zero] using nonzero

namespace BoundSystem

variable {G : ZMod q} (power : bound.serialPower = ofZMod G) (fits : bound.system.Fits q)
  {V : Wire → ℕ → ZMod q} {i : ℕ}

include fits in
theorem lt_checkedCount_of_violated
    (violated : bound.Violated (.ofClasses bound.system.layout V) (.constraint i)) :
    i < bound.system.layout.checkedCount :=
  Nat.lt_of_lt_of_eq violated.1 fits.length_checked

include power fits in
theorem violated_constraint_iff (below : i < bound.system.layout.checkedCount) :
    bound.Violated (.ofClasses bound.system.layout V) (.constraint i)
      ↔ bound.system.residual G V i ≠ 0 := by
  obtain ⟨sum, constant, evaluated, constantEq, residual⟩ :=
    exists_evaluate_eq_ok power fits V (Layout.lt_constraintCount below)
  have listed : i < bound.system.checked.length :=
    Nat.lt_of_lt_of_eq below fits.length_checked.symm
  rw [← residual, sub_ne_zero]
  constructor
  · rintro ⟨-, sum', constant', evaluated', constantEq', different⟩ same
    obtain rfl := Except.ok.inj (evaluated.symm.trans evaluated')
    obtain rfl := Except.ok.inj (constantEq.symm.trans constantEq')
    exact different (congrArg ofZMod same)
  · intro different
    exact ⟨listed, _, _, evaluated, constantEq, mt ofZMod_inj.mp different⟩

end BoundSystem

end

section

variable {p : Parameters} {layout : Layout} {serial : Residue}
  {V : Wire → ℕ → ZMod p.field.modulus}

theorem lt_checkedCount_of_violated {i : ℕ}
    (violated : ((LinearSystem.onLayout p layout).bind serial).Violated (.ofClasses layout V)
      (.constraint i)) : i < layout.checkedCount :=
  BoundSystem.lt_checkedCount_of_violated (LinearSystem.fits_onLayout p layout) violated

theorem violated_constraint_iff {i : ℕ} (below : i < layout.checkedCount) :
    ((LinearSystem.onLayout p layout).bind serial).Violated (.ofClasses layout V) (.constraint i)
      ↔ (LinearSystem.onLayout p layout).residual (p.gClass ^ serial.value) V i ≠ 0 :=
  BoundSystem.violated_constraint_iff (LinearSystem.serialPower_bind p layout serial)
    (LinearSystem.fits_onLayout p layout) below

theorem violated_ofPower_iff {k : ℕ} (below : k < Relation.powerCount layout) :
    ((LinearSystem.onLayout p layout).bind serial).Violated (.ofClasses layout V)
        (.ofPower layout k)
      ↔ Relation.coefficient (.onLayout p layout) (p.gClass ^ serial.value) V k ≠ 0 := by
  revert k
  apply Relation.forall_powers
  case gate =>
    intro m row col column
    have inside : (⟨m, col⟩ : Cell).Inside layout.rows layout.columns := ⟨row, column⟩
    have weighed := Relation.coefficient_gate (.onLayout p layout) (p.gClass ^ serial.value) V row
      column
    rw [Relation.ofPower_gate inside]
    exact (violated_gate_iff inside).trans (not_congr (Eq.congr_left weighed).symm)
  case constraint =>
    intro i below
    have weighed := Relation.coefficient_constraint (.onLayout p layout)
      (p.gClass ^ serial.value) V i
    rw [Relation.ofPower_constraint]
    exact (violated_constraint_iff below).trans (not_congr (Eq.congr_left weighed).symm)

theorem exists_ofPower {relation : Relation}
    (violated : ((LinearSystem.onLayout p layout).bind serial).Violated (.ofClasses layout V)
      relation) :
    ∃ k < Relation.powerCount layout, Relation.ofPower layout k = relation := by
  apply Relation.exists_ofPower_of_folded
  cases relation with
  | gate cell => exact inside_of_violated violated
  | constraint index => exact lt_checkedCount_of_violated violated

end

section

variable {p : Parameters} [Fact p.field.modulus.Prime] {layout : Layout} {serial : Residue}
  {V : Wire → ℕ → ZMod p.field.modulus} {pads : ℕ}

theorem check_eq_require_fold {z : ZMod p.field.modulus} (nonzero : z ≠ 0) :
    (Aggregation.ofClass (.onLayout p layout) (p.gClass ^ serial.value) pads z).check
        (.ofClasses layout V)
      = require (Relation.fold (.onLayout p layout) (p.gClass ^ serial.value) V z = 0)
          (.refused .aggregation) := by
  refine (Aggregation.check_ofClass (LinearSystem.fits_onLayout p layout) V).trans ?_
  apply require_congr
  -- The lowest power is common to all relations, and not zero.
  rw [Relation.aggregatedResidual_eq, mul_eq_zero]
  exact or_iff_right (pow_ne_zero _ nonzero)

/-- A challenge other than zero passes exactly if the residuals times its powers cancel out. -/
theorem passes_iff {y : Residue} (contained : p.field.Contains y) (nonzero : y.value ≠ 0) :
    ((LinearSystem.onLayout p layout).bind serial).Passes pads (.ofClasses layout V) y
      ↔ layout.columns + pads < Count.limit ∧
        Relation.fold (.onLayout p layout) (p.gClass ^ serial.value) V
          (y.toZMod p.field.modulus) = 0 := by
  have power := LinearSystem.serialPower_bind p layout serial
  have fits := LinearSystem.fits_onLayout p layout
  have unit : y.toZMod p.field.modulus ≠ 0 := mt (toZMod_eq_zero_iff contained).mp nonzero
  rw [BoundSystem.Passes, ← ofZMod_toZMod contained, toZMod_ofZMod]
  by_cases padded : layout.columns + pads < Count.limit
  · have made := Aggregation.ofChallenge_eq_ok power fits padded unit
    rw [made]
    constructor
    · rintro ⟨aggregation, same, passed⟩
      obtain rfl := Except.ok.inj same
      exact ⟨padded, require_eq_ok_iff.mp ((check_eq_require_fold unit).symm.trans passed)⟩
    · rintro ⟨-, root⟩
      exact ⟨_, rfl, (check_eq_require_fold unit).trans (require_eq_ok_iff.mpr root)⟩
  · have made := Aggregation.ofChallenge_overflow power padded (y.toZMod p.field.modulus)
    rw [made]
    constructor
    · rintro ⟨aggregation, failed, -⟩
      cases failed
    · rintro ⟨padded', -⟩
      exact absurd padded' padded

variable {relation : Relation}
  (violated : ((LinearSystem.onLayout p layout).bind serial).Violated (.ofClasses layout V)
    relation)

include violated in
/-- The challenges that hide a violated relation are roots of the polynomial. -/
theorem encard_passing_le :
    {y : Residue | p.field.Contains y ∧ y.value ≠ 0 ∧
        ((LinearSystem.onLayout p layout).bind serial).Passes pads (.ofClasses layout V) y}.encard
      ≤ (Relation.powerCount layout - 1 : ℕ) := by
  obtain ⟨k, below, rfl⟩ := exists_ofPower violated
  have nonzero := (violated_ofPower_iff below).mp violated
  let roots := Finset.univ.filter fun z : ZMod p.field.modulus =>
    Relation.fold (.onLayout p layout) (p.gClass ^ serial.value) V z = 0
  have few : roots.card ≤ Relation.powerCount layout - 1 := by
    apply card_roots_le _ below nonzero
    intro z member
    exact (Finset.mem_filter.mp member).2
  refine le_trans ?_ (Nat.cast_le.mpr few)
  rw [← Set.encard_coe_eq_coe_finsetCard]
  refine Set.encard_le_encard_of_injOn (f := toZMod p.field.modulus) ?_ ?_
  · rintro y ⟨contained, nonzero, passes⟩
    have root := ((passes_iff contained nonzero).mp passes).2
    exact Finset.mem_coe.mpr (Finset.mem_filter.mpr ⟨Finset.mem_univ _, root⟩)
  · rintro y ⟨contained, -⟩ y' ⟨contained', -⟩ same
    rw [← ofZMod_toZMod contained, same, ofZMod_toZMod contained']

include violated in
/-- The polynomial of a single violated relation has one term. -/
theorem fold_ne_zero (unique : ∀ other,
      ((LinearSystem.onLayout p layout).bind serial).Violated (.ofClasses layout V) other →
        other = relation) {z : ZMod p.field.modulus} (nonzero : z ≠ 0) :
    Relation.fold (.onLayout p layout) (p.gClass ^ serial.value) V z ≠ 0 := by
  obtain ⟨k, below, rfl⟩ := exists_ofPower violated
  refine sum_ne_zero_of_single _ below ((violated_ofPower_iff below).mp violated) ?_ nonzero
  intro l below' nonzero'
  exact Relation.ofPower_inj.mp (unique _ ((violated_ofPower_iff below').mpr nonzero'))

end

/-- Over a field, wires that violate a relation pass the folded equation for fewer challenges than
    there are relations, and for none if they violate just one relation. -/
theorem passing_challenges {p : Parameters} (prime : p.field.modulus.Prime)
    {system : LinearSystem} (built : LinearSystem.ofParameters p = .ok system) (serial : Residue)
    {wires : Wires} (sameLayout : wires.layout = system.layout) (ofField : wires.Over p.field)
    (pads : ℕ) :
    let bound := system.bind serial
    let relations := system.layout.rows * system.layout.columns + 4 * system.layout.serialSize - 3
    ((∃ relation, bound.Violated wires relation) →
      {y : Residue | p.field.Contains y ∧ y.value ≠ 0 ∧ bound.Passes pads wires y}.encard
          ≤ relations ∧
        relations ≤ system.layout.linearOffset + 4 * system.layout.serialSize - 3) ∧
    ((∃! relation, bound.Violated wires relation) →
      ∀ y : Residue, p.field.Contains y → y.value ≠ 0 →
        ¬bound.Passes pads wires y ∧
        (system.layout.columns + pads < Count.limit →
          ∃ aggregation, Aggregation.ofChallenge y bound pads = .ok aggregation ∧
            aggregation.check wires = .error (.refused .aggregation))) := by
  have : Fact p.field.modulus.Prime := ⟨prime⟩
  obtain ⟨layout, V, -, rfl, rfl⟩ :=
    LinearSystem.exists_classes_of_built built sameLayout ofField
  have long := layout.three_le_serialSize
  have count : Relation.powerCount layout
      = layout.rows * layout.columns + (4 * layout.serialSize - 2) := rfl
  intro bound relations
  refine ⟨?_, ?_⟩
  · rintro ⟨relation, violated⟩
    have polynomial : Relation.powerCount layout - 1 = relations := by
      change _ = layout.rows * layout.columns + 4 * layout.serialSize - 3
      omega
    have offset : layout.linearOffset = layout.rows * layout.columns + layout.rows + 1 := by
      rw [Layout.linearOffset, Nat.mul_succ]
    refine ⟨polynomial ▸ encard_passing_le violated, ?_⟩
    change relations ≤ layout.linearOffset + 4 * layout.serialSize - 3
    omega
  · rintro ⟨relation, violated, unique⟩ y contained nonzero
    have unit : y.toZMod p.field.modulus ≠ 0 := mt (toZMod_eq_zero_iff contained).mp nonzero
    have noRoot := fold_ne_zero violated unique unit
    refine ⟨fun passes => noRoot ((passes_iff contained nonzero).mp passes).2, ?_⟩
    intro padded
    have made := Aggregation.ofChallenge_eq_ok (LinearSystem.serialPower_bind p layout serial)
      (LinearSystem.fits_onLayout p layout) padded unit
    rw [ofZMod_toZMod contained] at made
    exact ⟨_, made, (check_eq_require_fold unit).trans (require_of_not noRoot)⟩

/-- A product that is off by one, in the one gate that is not in use, is found under every
    challenge. -/
theorem passing_challenges_seven :
    let bound := (LinearSystem.onLayout .seven .seven).bind (Parameters.seven.field.residue 2)
    ∃ wires : Wires, wires.layout = Layout.seven ∧ wires.Over Parameters.seven.field ∧
      (∃! relation, bound.Violated wires relation) ∧
      {y : Residue | Parameters.seven.field.Contains y ∧ y.value ≠ 0 ∧
        bound.Passes 1 wires y}.encard ≤ (15 : ℕ) ∧
      ∀ y : Residue, Parameters.seven.field.Contains y → y.value ≠ 0 →
        ∃ aggregation, Aggregation.ofChallenge y bound 1 = .ok aggregation ∧
          aggregation.check wires = .error (.refused .aggregation) := by
  have prime : Nat.Prime Parameters.seven.field.modulus := Nat.prime_seven
  have ofField : (Wires.ofClasses Layout.seven (setClass honestSeven .c 5 1)).Over
      Parameters.seven.field := Wires.over_ofClasses _
  have relations : LinearRelations 3 Parameters.seven.hClass (Parameters.seven.gClass ^ 2)
      (setClass honestSeven .c 5 1) := by
    have assigned : LinearRelations 3 _ _ honestSeven := linearRelations_honest (Nat.le_refl 3)
    refine assigned.of_agree (Nat.le_refl 3) ?_
    intro wire i below
    exact setClass_of_ne _ _ (by omega) _ _
  have single : ∃! relation, ((LinearSystem.onLayout .seven .seven).bind
      (Parameters.seven.field.residue 2)).Violated
      (.ofClasses Layout.seven (setClass honestSeven .c 5 1)) relation := by
    refine ⟨.gate (Layout.seven.cell 5), ?_, ?_⟩
    · refine (violated_gate_iff (Layout.seven.inside_cell (by decide))).mpr ?_
      decide
    · intro relation violated
      cases relation with
      | gate cell =>
        have inside := inside_of_violated violated
        have nonzero := (violated_gate_iff inside).mp violated
        have position : cell.position Layout.seven.columns = 5 := by
          by_contra other
          apply nonzero
          rw [gateResidual_setClass_of_ne _ _ other]
          exact gateResidual_honest _
        rw [← Layout.cell_position inside, position]
      | constraint i =>
        have below := lt_checkedCount_of_violated violated
        exact absurd (LinearSystem.residuals_eq_zero_iff.mpr relations i below)
          ((violated_constraint_iff below).mp violated)
  have claim := passing_challenges prime ofParameters_seven (Parameters.seven.field.residue 2) rfl
    ofField 1
  refine ⟨_, rfl, ofField, single, (claim.1 single.exists).1, ?_⟩
  intro y contained nonzero
  exact (claim.2 single y contained nonzero).2 (by decide)

end CoinSpend
