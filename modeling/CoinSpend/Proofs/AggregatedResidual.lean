import CoinSpend.Proofs.AggregatedWeights
import Mathlib.Algebra.BigOperators.Ring.Finset
import Mathlib.Tactic.Ring

/-!
# The residual of the folded equation

Over wires of one field the folded equation is off by the residuals of all gates and of all
checked constraints, each multiplied by its own power of the challenge. Nothing here divides, so
the modulus need not be prime.
-/

namespace CoinSpend

open Residue

section

variable {q : ℕ}

/-! ## Pairing weights with wires -/

/-- The sum over the first `n` positions of all wires, each value times its weight. -/
def pairing (n : ℕ) (V : Wire → ℕ → ZMod q) (W : Wire → ℕ → ZMod q) : ZMod q :=
  (Wire.all.map fun wire => ∑ i ∈ Finset.range n, V wire i * W wire i).sum

variable {n : ℕ} {V : Wire → ℕ → ZMod q}

theorem pairing_eq (W : Wire → ℕ → ZMod q) :
    pairing n V W = ∑ i ∈ Finset.range n, V .a i * W .a i
      + (∑ i ∈ Finset.range n, V .b i * W .b i + ∑ i ∈ Finset.range n, V .c i * W .c i) := by
  simp [pairing, Wire.all]

theorem pairing_zero : pairing n V (0 : Wire → ℕ → ZMod q) = 0 := by
  simp [pairing_eq]

theorem pairing_add (W W' : Wire → ℕ → ZMod q) :
    pairing n V (W + W') = pairing n V W + pairing n V W' := by
  simp only [pairing_eq, Pi.add_apply, mul_add, Finset.sum_add_distrib]
  ring

theorem pairing_sum {α : Type} (l : List α) (W : α → Wire → ℕ → ZMod q) :
    pairing n V (l.map W).sum = (l.map fun a => pairing n V (W a)).sum := by
  induction l with
  | nil => exact pairing_zero
  | cons a l ih => rw [List.map_cons, List.sum_cons, pairing_add, ih, List.map_cons, List.sum_cons]

theorem pairing_singleClass (wire : Wire) {i : ℕ} (h : i < n) (z : ZMod q) :
    pairing n V (singleClass wire i z) = V wire i * z := by
  have here (other : Wire) : ∑ j ∈ Finset.range n, V other j * singleClass wire i z other j
      = if other = wire then V wire i * z else 0 := by
    by_cases same : other = wire
    · subst same
      rw [if_pos rfl, Finset.sum_eq_single_of_mem i (Finset.mem_range.mpr h)]
      · simp [singleClass]
      · intro j _ ne
        simp [singleClass, ne]
    · simp [singleClass, same]
  rw [pairing_eq, here, here, here]
  cases wire <;> simp

/-- A constraint contributes its weighted sum over the wires. -/
theorem pairing_rowWeights {layout : Layout} {c : Constraint} (fits : c.Fits q layout)
    (G z : ZMod q) :
    pairing (layout.rows * layout.columns) V (rowWeights layout.columns G z c)
      = termSum layout.columns G V c.terms * z := by
  rw [rowWeights, pairing_sum, termSum, ← List.sum_map_mul_right]
  congr 1
  apply List.map_congr_left
  intro term member
  rw [pairing_singleClass term.wire (Cell.position_lt (fits.cell term member))]
  ring

/-- The gates contribute their products with the opposite sign. -/
theorem pairing_writeClasses (rows columns : ℕ) (w : ℕ → ZMod q) :
    pairing (rows * columns) V (writeClasses .c w 0 (positions rows columns))
      = ∑ i ∈ Finset.range (rows * columns), V .c i * w i := by
  have untouched (wire : Wire) (other : wire ≠ .c) (i : ℕ) :
      writeClasses .c w 0 (positions rows columns) wire i = 0 :=
    writeClasses_of_wire_ne w 0 _ other i
  have written (i : ℕ) (member : i ∈ Finset.range (rows * columns)) :
      V .c i * writeClasses .c w 0 (positions rows columns) .c i = V .c i * w i := by
    rw [writeClasses_mem (mem_positions (Finset.mem_range.mp member))]
  rw [pairing_eq, Finset.sum_congr rfl written]
  simp only [untouched _ (show Wire.a ≠ .c by decide), untouched _ (show Wire.b ≠ .c by decide),
    mul_zero, Finset.sum_const_zero, zero_add]

/-- What a challenge with class `y` turns the residuals of the gates and of the checked constraints
    into. -/
def aggregatedResidual (system : LinearSystem) (G y : ZMod q) (V : Wire → ℕ → ZMod q) : ZMod q :=
  ∑ i ∈ Finset.range (system.layout.rows * system.layout.columns),
      gateResidual V i * y ^ gateExponent system.layout.rows system.layout.columns i
    + ∑ i ∈ Finset.range system.layout.checkedCount,
      system.residual G V i * y ^ (system.layout.linearOffset + i)

theorem aggregatedResidual_eq_zero {system : LinearSystem} {G : ZMod q} {V : Wire → ℕ → ZMod q}
    (gates : ∀ i < system.layout.rows * system.layout.columns, gateResidual V i = 0)
    (constraints : ∀ i < system.layout.checkedCount, system.residual G V i = 0) (y : ZMod q) :
    aggregatedResidual system G y V = 0 := by
  rw [aggregatedResidual, Finset.sum_eq_zero, Finset.sum_eq_zero, add_zero]
  · intro i member
    rw [constraints i (Finset.mem_range.mp member), zero_mul]
  · intro i member
    rw [gates i (Finset.mem_range.mp member), zero_mul]

/-- A single constraint that does not hold leaves a single term. -/
theorem aggregatedResidual_of_single {system : LinearSystem} {G : ZMod q} {V : Wire → ℕ → ZMod q}
    (gates : ∀ i < system.layout.rows * system.layout.columns, gateResidual V i = 0) {k : ℕ}
    (below : k < system.layout.checkedCount)
    (others : ∀ i < system.layout.checkedCount, i ≠ k → system.residual G V i = 0) (y : ZMod q) :
    aggregatedResidual system G y V
      = system.residual G V k * y ^ (system.layout.linearOffset + k) := by
  rw [aggregatedResidual, Finset.sum_eq_zero, zero_add,
    Finset.sum_eq_single_of_mem k (Finset.mem_range.mpr below)]
  · intro i member other
    rw [others i (Finset.mem_range.mp member) other, zero_mul]
  · intro i member
    rw [gates i (Finset.mem_range.mp member), zero_mul]

theorem sum_checked {system : LinearSystem} (fits : system.Fits q) (G : ZMod q)
    (V : Wire → ℕ → ZMod q) (power : ℕ → ZMod q) :
    (system.checked.zipIdx.map fun (c, i) =>
        c.residual system.layout.columns G V * power i).sum
      = ∑ i ∈ Finset.range system.layout.checkedCount, system.residual G V i * power i := by
  have length := fits.length_checked
  rw [← sum_map_range]
  congr 1
  apply List.ext_getElem
  · simp [length]
  · intro i below _
    have within : i < system.checked.length := by simpa using below
    have row : system.checked[i]? = system.constraints[i]? := by
      rw [length] at within
      rw [LinearSystem.checked, List.getElem?_take_of_lt within, Array.getElem?_toList]
    simp [LinearSystem.residual, ← row, List.getElem?_eq_getElem within]

/-- The two folds less the constant are off by the weighted residuals. -/
theorem folds_sub_constant {system : LinearSystem} (fits : system.Fits q) (G y : ZMod q)
    (V : Wire → ℕ → ZMod q) :
    ∑ i ∈ Finset.range (system.layout.rows * system.layout.columns),
        V .a i * V .b i * y ^ gateExponent system.layout.rows system.layout.columns i
      + pairing (system.layout.rows * system.layout.columns) V (wireWeights system G y)
      - constantSum system y = aggregatedResidual system G y V := by
  have constraints : pairing (system.layout.rows * system.layout.columns) V
        (checkedWeights system G y) - constantSum system y
      = ∑ i ∈ Finset.range system.layout.checkedCount,
          system.residual G V i * y ^ (system.layout.linearOffset + i) := by
    rw [sub_eq_iff_eq_add, ← sum_checked fits, checkedWeights, pairing_sum, constantSum,
      ← List.sum_map_add]
    congr 1
    apply List.map_congr_left
    intro numbered member
    obtain ⟨c, i⟩ := numbered
    have row := (fits.of_mem_zipIdx member).2
    dsimp only
    rw [pairing_rowWeights row, Constraint.residual]
    ring
  -- The products of the gates entered the weights with the opposite sign.
  rw [aggregatedResidual, wireWeights, pairing_add, pairing_writeClasses, ← constraints]
  simp only [gateResidual, productWeight, sub_mul, Finset.sum_sub_distrib, mul_neg,
    Finset.sum_neg_distrib]
  ring

end

section

variable {q : ℕ} [NeZero q]

/-! ## The aggregation of a challenge -/

/-- The aggregation that is made for the challenge with class `y`, where `G` is the class of the
    serial power. -/
def Aggregation.ofClass (system : LinearSystem) (G : ZMod q) (pads : ℕ) (y : ZMod q) :
    Aggregation where
  layout := system.layout
  challenge := ofZMod y
  powers := ((List.range system.layout.powerCount).map fun k => ofZMod (y ^ k)).toArray
  columnPowers := (List.range system.layout.columns).map fun col =>
    ofZMod (y ^ (system.layout.rows * (col + 1)))
  negativePowers := (List.range (system.layout.columns + pads)).map fun k =>
    ofZMod ((inversePower y ^ system.layout.rows) ^ (k + 1))
  weights := classGrid system.layout.rows system.layout.columns (wireWeights system G y)
  constant := ofZMod (constantSum system y)

namespace Aggregation

variable {bound : BoundSystem} {G : ZMod q} {pads : ℕ}

private theorem sameField_serialPower (power : bound.serialPower = ofZMod G) (y : ZMod q) :
    (ofZMod y).SameField bound.serialPower := by
  rw [power]
  exact sameField_ofZMod y G

theorem ofChallenge_eq_ok (power : bound.serialPower = ofZMod G) (fits : bound.system.Fits q)
    (padded : bound.system.layout.columns + pads < Count.limit) {y : ZMod q} (nonzero : y ≠ 0) :
    ofChallenge (ofZMod y) bound pads = .ok (ofClass bound.system G pads y) := by
  have table := bound.system.layout.cells_lt_powerCount
  have long : bound.system.layout.rows * bound.system.layout.columns
      < bound.system.layout.powerCount := by omega
  rw [ofChallenge, if_neg (not_not_intro (sameField_serialPower power y))]
  simp only [Layout.findLinearOffset_eq_ok, Layout.countPowers_eq_ok, Count.add_eq_ok padded,
    Attempt.liftM_ok, pure_eq_ok, ok_bind, negativePowers_ofZMod nonzero, powers_ofZMod,
    columnPowersOf_eq_ok y bound.system.layout.rows_pos bound.system.layout.cells_lt_limit long,
    weights_eq_ok power fits, fits.readChecked_eq_ok, weightedConstant_eq_ok fits]
  rfl

theorem ofChallenge_zero (power : bound.serialPower = ofZMod G)
    (padded : bound.system.layout.columns + pads < Count.limit) :
    ofChallenge (ofZMod (0 : ZMod q)) bound pads = .error (.refused .degenerate) := by
  rw [ofChallenge, if_neg (not_not_intro (sameField_serialPower power 0))]
  simp only [Layout.findLinearOffset_eq_ok, Layout.countPowers_eq_ok, Count.add_eq_ok padded,
    Attempt.liftM_ok, pure_eq_ok, ok_bind, negativePowers_zero, error_bind]

/-- The padded columns have to be countable. -/
theorem ofChallenge_overflow (power : bound.serialPower = ofZMod G)
    (overflow : ¬bound.system.layout.columns + pads < Count.limit) (y : ZMod q) :
    ofChallenge (ofZMod y) bound pads = .error (.fault (.overflow .add)) := by
  rw [ofChallenge, if_neg (not_not_intro (sameField_serialPower power y))]
  simp only [Layout.findLinearOffset_eq_ok, Layout.countPowers_eq_ok, Attempt.liftM_ok, ok_bind,
    Count.add, if_neg overflow, Attempt.liftM_error, pure_eq_ok, error_bind]

end Aggregation

/-! ## The folds -/

namespace Aggregation

/-- The products of one row of gates. -/
private theorem rowFold_eq_ok (columns : ℕ) (v : ℕ → Wire → ZMod q) (w : ℕ → ZMod q) :
    (((List.range columns).map fun col => classTriple (v col)).zip
          ((List.range columns).map fun col => ofZMod (w col))).foldlM
        (fun (sum : Residue) (gate, columnPower) => do
          sum.add (← (← gate.a.mul gate.b).mul columnPower)) (ofZMod (0 : ZMod q))
      = .ok (ofZMod (∑ col ∈ Finset.range columns, v col .a * v col .b * w col)) := by
  rw [List.zip_map', List.foldlM_map,
    foldlM_add ofZMod fun col => v col .a * v col .b * w col, zero_add, sum_map_range]
  intro sum col _
  simp only [classTriple, Triple.a_ofFn, Triple.b_ofFn, mul_ofZMod, ok_bind, add_ofZMod]

variable {layout : Layout} {aggregation : Aggregation}

/-- The products of the gates, row by row, where `P` gives the table of powers and `D` that of the
    columns. -/
theorem gateFold_eq_ok {P D : ℕ → ZMod q}
    (powers : ∀ k ≤ layout.rows, entry aggregation.powers k = .ok (ofZMod (P k)))
    (columnPowers : aggregation.columnPowers
      = (List.range layout.columns).map fun col => ofZMod (D col)) (V : Wire → ℕ → ZMod q) :
    aggregation.gateFold (.ofClasses layout V)
      = .ok (ofZMod (∑ m ∈ Finset.range layout.rows, P (m + 1)
          * ∑ col ∈ Finset.range layout.columns,
            V .a (m * layout.columns + col) * V .b (m * layout.columns + col) * D col)) := by
  rw [gateFold, powers 0 (Nat.zero_le _), ok_bind, zero_ofZMod, foldlM_add ofZMod fun m =>
    P (m + 1) * ∑ col ∈ Finset.range layout.columns,
      V .a (m * layout.columns + col) * V .b (m * layout.columns + col) * D col]
  · rw [zero_add, sum_map_range]
    rfl
  · intro total m member
    have below : m < layout.rows := List.mem_range.mp member
    have row : (Wires.ofClasses layout V).gates.row m
        = .ok ((List.range layout.columns).map fun col =>
            classTriple fun wire => V wire (m * layout.columns + col)) :=
      Grid.row_tabulate _ below
    have next : Count.add m 1 = .ok (m + 1) :=
      Count.add_eq_ok (Nat.lt_of_le_of_lt below layout.rows_lt_limit)
    rw [row, ok_bind, zero_ofZMod, columnPowers, rowFold_eq_ok, ok_bind, next, ok_bind,
      powers (m + 1) below, ok_bind, mul_ofZMod, ok_bind, add_ofZMod]

/-- The values of all wires, where `W` gives the grid of weights. -/
theorem linearFold_eq_ok {W : Wire → ℕ → ZMod q}
    (weights : ∀ i < layout.rows * layout.columns,
      aggregation.weights.read (layout.cell i) = .ok (classTriple fun wire => W wire i))
    (constant : aggregation.constant.modulus = q) (V : Wire → ℕ → ZMod q) :
    aggregation.linearFold (.ofClasses layout V)
      = .ok (ofZMod (pairing (layout.rows * layout.columns) V W)) := by
  have cells : (Wires.ofClasses layout V).gates.cells
      = (List.range (layout.rows * layout.columns)).map fun i =>
          (layout.cell i, classTriple fun wire => V wire i) :=
    Grid.cells_tabulate _
  rw [linearFold, ← ofZMod_toZMod constant, zero_ofZMod, foldlM_add ofZMod fun wire =>
    ∑ i ∈ Finset.range (layout.rows * layout.columns), V wire i * W wire i]
  · rw [zero_add]
    rfl
  · intro sum wire _
    rw [cells, List.foldlM_map, foldlM_add ofZMod fun i => V wire i * W wire i, sum_map_range]
    intro sum i member
    dsimp only
    rw [weights i (List.mem_range.mp member), ok_bind, classTriple_on, classTriple_on, mul_ofZMod,
      ok_bind, add_ofZMod]

/-- The check of the folded equation compares the classes of the folds and of the constant. -/
theorem check_eq_require {wires : Wires} {gates linear constant : ZMod q}
    (gateFold : aggregation.gateFold wires = .ok (ofZMod gates))
    (linearFold : aggregation.linearFold wires = .ok (ofZMod linear))
    (folded : aggregation.constant = ofZMod constant) :
    aggregation.check wires = require (gates + linear = constant) (.refused .aggregation) := by
  rw [check, gateFold, Attempt.liftM_ok, ok_bind, linearFold, Attempt.liftM_ok, ok_bind,
    add_ofZMod, Attempt.liftM_ok, ok_bind, folded]
  simp only [ne_eq, ofZMod_inj]
  rw [ite_not]
  rfl

end Aggregation

/-! ## The folded equation -/

namespace Aggregation

variable {system : LinearSystem} {G y : ZMod q} {pads : ℕ}

theorem gateFold_ofClass (V : Wire → ℕ → ZMod q) :
    (ofClass system G pads y).gateFold (Wires.ofClasses system.layout V)
      = .ok (ofZMod (∑ i ∈ Finset.range (system.layout.rows * system.layout.columns),
          V .a i * V .b i * y ^ gateExponent system.layout.rows system.layout.columns i)) := by
  have table := system.layout.cells_lt_powerCount
  have powers (k : ℕ) (below : k ≤ system.layout.rows) :
      entry (ofClass system G pads y).powers k = .ok (ofZMod (y ^ k)) :=
    entry_range _ (by omega)
  rw [gateFold_eq_ok powers rfl, sum_range_mul]
  congr 3
  funext m
  rw [Finset.mul_sum]
  apply Finset.sum_congr rfl
  intro col inside
  rw [gateExponent_row (Finset.mem_range.mp inside), pow_add]
  ring

theorem linearFold_ofClass (V : Wire → ℕ → ZMod q) :
    (ofClass system G pads y).linearFold (Wires.ofClasses system.layout V)
      = .ok (ofZMod (pairing (system.layout.rows * system.layout.columns) V
          (wireWeights system G y))) := by
  have constant : (ofClass system G pads y).constant.modulus = q := rfl
  refine linearFold_eq_ok ?_ constant V
  intro i below
  have read := Grid.read_tabulate (fun i => classTriple fun wire => wireWeights system G y wire i)
    (system.layout.inside_cell below)
  rwa [system.layout.position_cell] at read

/-- The check of the folded equation succeeds exactly when the residuals cancel out. -/
theorem check_ofClass (fits : system.Fits q) (V : Wire → ℕ → ZMod q) :
    (ofClass system G pads y).check (Wires.ofClasses system.layout V)
      = require (aggregatedResidual system G y V = 0) (.refused .aggregation) := by
  have constant : (ofClass system G pads y).constant = ofZMod (constantSum system y) := rfl
  rw [check_eq_require (gateFold_ofClass V) (linearFold_ofClass V) constant]
  apply require_congr
  rw [← folds_sub_constant fits, sub_eq_zero]

/-- The folded equation adds nothing to the gates and the constraints: it holds for every challenge
    once they do. -/
theorem check_ofClass_eq_ok {bound : BoundSystem} {G : ZMod q}
    (power : bound.serialPower = ofZMod G) (fits : bound.system.Fits q) {V : Wire → ℕ → ZMod q}
    (gates : (Wires.ofClasses bound.system.layout V).checkGates = .ok ())
    (constraints : bound.checkConstraints (.ofClasses bound.system.layout V) = .ok ()) (pads : ℕ)
    (y : ZMod q) :
    (ofClass bound.system G pads y).check (.ofClasses bound.system.layout V) = .ok () := by
  rw [Wires.checkGates_ofClasses, forM_require_eq_ok_iff] at gates
  rw [BoundSystem.checkConstraints_ofClasses power fits, forM_require_eq_ok_iff] at constraints
  rw [check_ofClass fits, require_eq_ok_iff]
  exact aggregatedResidual_eq_zero gates constraints y

end Aggregation

end

end CoinSpend
