import CoinSpend.Check
import CoinSpend.Proofs.ConstraintRows

/-!
# What the relations of a circuit are off by

The residual of a gate is the product of its factors less the value on `c`, that of a constraint
its weighted sum less its constant. Over wires of one field the single checks answer with the
first residual that is not zero.
-/

namespace CoinSpend

open Residue

section

variable {q : ℕ}

/-- The class of the coefficient of a term, where `G` is the class of the serial power. -/
def Term.weight (q : ℕ) (G : ZMod q) (term : Term) : ZMod q :=
  term.coefficient.toZMod q * if term.serialScaled then G else 1

/-- The weighted sum of terms over wires with the classes `V`. -/
def termSum (columns : ℕ) (G : ZMod q) (V : Wire → ℕ → ZMod q) (terms : List Term) : ZMod q :=
  (terms.map fun term => term.weight q G * V term.wire (term.cell.position columns)).sum

/-- The residual of a constraint. -/
def Constraint.residual (columns : ℕ) (G : ZMod q) (V : Wire → ℕ → ZMod q)
    (constraint : Constraint) : ZMod q :=
  termSum columns G V constraint.terms - constraint.constant.toZMod q

/-- The residual of the gate at a position. -/
def gateResidual (V : Wire → ℕ → ZMod q) (i : ℕ) : ZMod q :=
  V .a i * V .b i - V .c i

theorem gateResidual_setClass_of_ne (V : Wire → ℕ → ZMod q) (wire : Wire) {i j : ℕ} (h : j ≠ i)
    (z : ZMod q) : gateResidual (setClass V wire i z) j = gateResidual V j := by
  rw [gateResidual, setClass_of_ne V wire h, setClass_of_ne V wire h, setClass_of_ne V wire h,
    gateResidual]

/-- A constraint whose coefficients and constant are of the field with modulus `q`, and whose terms
    lie in the grid of the layout. -/
structure Constraint.Fits (q : ℕ) (layout : Layout) (constraint : Constraint) : Prop where
  constant : constraint.constant.modulus = q
  coefficient : ∀ term ∈ constraint.terms, term.coefficient.modulus = q
  cell : ∀ term ∈ constraint.terms, term.cell.Inside layout.rows layout.columns

/-- Dropping the terms with a zero coefficient does not change the sum. -/
theorem residual_ofTerms (columns : ℕ) (G : ZMod q) (V : Wire → ℕ → ZMod q)
    (kind : ConstraintFamily) (terms : List Term) (constant : Residue) :
    (Constraint.ofTerms kind terms constant).residual columns G V
      = termSum columns G V terms - constant.toZMod q := by
  simp only [Constraint.residual, Constraint.ofTerms]
  congr 1
  induction terms with
  | nil => rfl
  | cons term terms ih =>
    by_cases zero : term.coefficient.isZero = true
    · have value : term.coefficient.value = 0 := by simpa [isZero] using zero
      have nothing : term.weight q G = 0 := by simp [Term.weight, toZMod, value]
      rw [List.filter_cons_of_neg (by simp [zero]), ih]
      simp [termSum, nothing]
    · rw [List.filter_cons_of_pos (by simp [zero])]
      simp only [termSum, List.map_cons, List.sum_cons] at ih ⊢
      rw [ih]

theorem fits_ofTerms {layout : Layout} {kind : ConstraintFamily} {terms : List Term}
    {constant : Residue} (modulus : constant.modulus = q)
    (h : ∀ term ∈ terms,
      term.coefficient.modulus = q ∧ term.cell.Inside layout.rows layout.columns) :
    (Constraint.ofTerms kind terms constant).Fits q layout where
  constant := modulus
  coefficient := fun term kept => (h term (List.mem_of_mem_filter kept)).1
  cell := fun term kept => (h term (List.mem_of_mem_filter kept)).2

end

namespace BoundSystem

variable {q : ℕ} [NeZero q] {bound : BoundSystem} {G : ZMod q}

theorem coefficient_eq_ok (power : bound.serialPower = ofZMod G) {term : Term}
    (h : term.coefficient.modulus = q) :
    bound.coefficient term = .ok (ofZMod (term.weight q G)) := by
  rw [coefficient, ← ofZMod_toZMod h, power]
  by_cases scaled : term.serialScaled = true
  · simp [scaled, Term.weight]
  · simp [scaled, Term.weight]

theorem weightedSum_ofClasses (power : bound.serialPower = ofZMod G) {layout : Layout}
    (V : Wire → ℕ → ZMod q) {terms : List Term}
    (h : ∀ term ∈ terms,
      term.coefficient.modulus = q ∧ term.cell.Inside layout.rows layout.columns) :
    bound.weightedSum (Wires.ofClasses layout V) (ofZMod (0 : ZMod q)) terms
      = .ok (ofZMod (termSum layout.columns G V terms)) := by
  have step (sum : ZMod q) (term : Term) (member : term ∈ terms) :
      (do
        let coefficient ← bound.coefficient term
        (ofZMod sum).add
          (← coefficient.mul (← (Wires.ofClasses layout V).read term.wire term.cell)))
        = .ok (ofZMod (sum
            + term.weight q G * V term.wire (term.cell.position layout.columns))) := by
    rw [coefficient_eq_ok power (h term member).1, ok_bind,
      Wires.read_ofClasses V term.wire (h term member).2, ok_bind, mul_ofZMod, ok_bind, add_ofZMod]
  rw [weightedSum, foldlM_add ofZMod _ step, zero_add]
  rfl

variable {c : Constraint} {i : ℕ}

theorem evaluate_ofClasses (power : bound.serialPower = ofZMod G) (V : Wire → ℕ → ZMod q)
    (present : bound.system.constraints[i]? = some c) (fits : c.Fits q bound.system.layout) :
    bound.evaluate i (Wires.ofClasses bound.system.layout V)
      = .ok (ofZMod (termSum bound.system.layout.columns G V c.terms)) := by
  rw [evaluate, entry_eq_ok_iff.mpr present, ok_bind, ← ofZMod_toZMod fits.constant, zero_ofZMod]
  exact weightedSum_ofClasses power V fun term member =>
    ⟨fits.coefficient term member, fits.cell term member⟩

theorem constant_eq_ok (present : bound.system.constraints[i]? = some c)
    (fits : c.Fits q bound.system.layout) :
    bound.constant i = .ok (ofZMod (c.constant.toZMod q)) := by
  rw [constant, entry_eq_ok_iff.mpr present, ok_bind, ofZMod_toZMod fits.constant]
  rfl

end BoundSystem

/-! ## The checks of the single relations -/

theorem Wires.checkGates_ofClasses {q : ℕ} [NeZero q] {layout : Layout} (V : Wire → ℕ → ZMod q) :
    (Wires.ofClasses layout V).checkGates
      = (List.range (layout.rows * layout.columns)).forM fun i =>
          require (gateResidual V i = 0) (.refused (.gate (layout.cell i))) := by
  have cells : (Wires.ofClasses layout V).gates.cells
      = (List.range (layout.rows * layout.columns)).map fun i =>
          (layout.cell i, classTriple fun wire => V wire i) :=
    Grid.cells_tabulate _
  rw [Wires.checkGates, cells, List.forM_eq_forM, List.forM_map]
  congr 1
  funext i
  by_cases holds : V .a i * V .b i = V .c i
  · simp [require, gateResidual, classTriple, holds]
  · simp [require, gateResidual, classTriple, sub_eq_zero, holds]

theorem Wires.checkCommitment_ofClasses {q : ℕ} [NeZero q] {layout : Layout}
    (V : Wire → ℕ → ZMod q) (commitment : Residue) :
    (Wires.ofClasses layout V).checkCommitment commitment
      = require (ofZMod (V .c (2 * layout.serialSize - 2)) = commitment)
          (.refused (.commitment layout.lastCell)) := by
  have cell : (Wires.ofClasses layout V).layout.findLastCell = .ok layout.lastCell :=
    layout.findLastCell_eq_ok
  rw [Wires.checkCommitment, cell, Attempt.liftM_ok, ok_bind, Wires.final_ofClasses,
    Attempt.liftM_ok, ok_bind]
  by_cases holds : ofZMod (V .c (2 * layout.serialSize - 2)) = commitment
  · simp [require, holds]
  · simp [require, holds]

namespace LinearSystem

/-- A system whose generator and constraints are of the field with modulus `q` and lie in the grid
    of its layout. -/
structure Fits (q : ℕ) (system : LinearSystem) : Prop where
  generator : system.g.modulus = q
  size : system.constraints.size = system.layout.constraintCount
  row : ∀ c ∈ system.constraints, c.Fits q system.layout

variable {q : ℕ} {system : LinearSystem}

/-- The residual of the constraint with the given number. -/
def residual (system : LinearSystem) (G : ZMod q) (V : Wire → ℕ → ZMod q) (i : ℕ) : ZMod q :=
  ((system.constraints[i]?).map fun c => c.residual system.layout.columns G V).getD 0

theorem Fits.length_checked (fits : system.Fits q) :
    system.checked.length = system.layout.checkedCount := by
  have size := fits.size
  have three := system.layout.three_le_serialSize
  rw [checked, List.length_take, Array.length_toList, size]
  unfold Layout.constraintCount Layout.checkedCount
  omega

theorem Fits.readChecked_eq_ok (fits : system.Fits q) :
    system.readChecked = .ok system.checked := by
  rw [readChecked, system.layout.countChecked_eq_ok, ok_bind]
  apply leading_eq_ok
  rw [fits.size, system.layout.constraintCount_eq]
  exact Nat.le_succ _

theorem Fits.exists_row (fits : system.Fits q) {i : ℕ} (h : i < system.layout.constraintCount) :
    ∃ c, system.constraints[i]? = some c ∧ c.Fits q system.layout := by
  have below : i < system.constraints.size := Nat.lt_of_lt_of_eq h fits.size.symm
  exact ⟨system.constraints[i], Array.getElem?_eq_getElem below,
    fits.row _ (Array.getElem_mem below)⟩

theorem getElem?_of_mem_zipIdx_checked {c : Constraint} {i : ℕ}
    (member : (c, i) ∈ system.checked.zipIdx) : system.constraints[i]? = some c := by
  have present := List.mem_zipIdx_iff_getElem?.mp member
  rw [checked, List.getElem?_take] at present
  split at present
  · rwa [Array.getElem?_toList] at present
  · cases present

theorem Fits.of_mem_zipIdx (fits : system.Fits q) {c : Constraint} {i : ℕ}
    (member : (c, i) ∈ system.checked.zipIdx) :
    i < system.layout.checkedCount ∧ c.Fits q system.layout := by
  constructor
  · rw [← fits.length_checked]
    exact (List.getElem?_eq_some_iff.mp (List.mem_zipIdx_iff_getElem?.mp member)).1
  · exact fits.row c (Array.mem_of_getElem? (getElem?_of_mem_zipIdx_checked member))

/-- The serial power that a system of the field is bound by. -/
theorem Fits.serialPower_eq [NeZero q] (fits : system.Fits q) (serial : Residue) :
    (system.bind serial).serialPower = ofZMod (system.g.toZMod q ^ serial.value) := by
  rw [← pow_ofZMod, ofZMod_toZMod fits.generator]
  rfl

end LinearSystem

namespace BoundSystem

variable {q : ℕ} [NeZero q] {bound : BoundSystem} {G : ZMod q} {i : ℕ}

/-- The weighted sum and the constant of a constraint. -/
theorem exists_evaluate_eq_ok (power : bound.serialPower = ofZMod G)
    (fits : bound.system.Fits q) (V : Wire → ℕ → ZMod q)
    (h : i < bound.system.layout.constraintCount) :
    ∃ sum constant : ZMod q,
      bound.evaluate i (Wires.ofClasses bound.system.layout V) = .ok (ofZMod sum) ∧
      bound.constant i = .ok (ofZMod constant) ∧
      sum - constant = bound.system.residual G V i := by
  obtain ⟨c, present, rowFits⟩ := fits.exists_row h
  refine ⟨_, _, evaluate_ofClasses power V present rowFits, constant_eq_ok present rowFits, ?_⟩
  rw [LinearSystem.residual, present]
  rfl

theorem checkConstraints_ofClasses (power : bound.serialPower = ofZMod G)
    (fits : bound.system.Fits q) (V : Wire → ℕ → ZMod q) :
    bound.checkConstraints (Wires.ofClasses bound.system.layout V)
      = (List.range bound.system.layout.checkedCount).forM fun i =>
          require (bound.system.residual G V i = 0) (.refused (.constraint i)) := by
  rw [checkConstraints, fits.readChecked_eq_ok, Attempt.liftM_ok, ok_bind, fits.length_checked]
  apply forM_congr
  intro i member
  obtain ⟨sum, constant, evaluated, constantEq, residual⟩ :=
    exists_evaluate_eq_ok power fits V (Layout.lt_constraintCount (List.mem_range.mp member))
  rw [evaluated, constantEq, ← residual]
  simp only [Attempt.liftM_ok, ok_bind, ne_eq, ofZMod_inj]
  by_cases holds : sum = constant
  · simp [require, holds]
  · simp [require, sub_eq_zero, holds]

end BoundSystem

end CoinSpend
