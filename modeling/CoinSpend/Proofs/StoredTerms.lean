import CoinSpend.Proofs.FlippedBits
import CoinSpend.Proofs.Projections

/-!
# The stored terms of a constraint system

A system keeps of every constraint only the terms whose coefficient is not zero, and yet it means
the constraint that is written out on all wires. No wire is named twice in a constraint, and the
one term that the serial number scales is in the last checked constraint.
-/

namespace CoinSpend

open Residue

/-! ## Constraints written out -/

section

variable {q : ℕ}

/-- What constraint `i` for `size` bits is off by, written out on all wires: `h` is the class of the
    second generator, `G` that of the power of the first one by the serial number, and `X wire i`
    that of the value on a wire of the gate with the number `i`. -/
def writtenOut (size : ℕ) (h G : ZMod q) (X : Wire → ℕ → ZMod q) (i : ℕ) : ZMod q :=
  if i < size then X .a i - X .b i - 1
  else if i < 2 * size then X .c (i - size)
  else if i < 3 * size - 1 then
    let k := i - 2 * size
    (h ^ 2 ^ (k + 1) - 1) * X .a (k + 1) - X .b (size + k) + 1
  else if i = 3 * size - 1 then X .a size + (1 - h) * X .b 0 - h
  else if i < 4 * size - 3 then
    let k := i - 3 * size
    X .a (size + k + 1) - X .c (size + k)
  else if i = 4 * size - 3 then X .a (2 * size - 2) - G * X .c (2 * size - 3)
  else X .c (2 * size - 2)

end

namespace LinearSystem

variable {p : Parameters} {layout : Layout} (G : ZMod p.field.modulus)
  (V : Wire → ℕ → ZMod p.field.modulus)

/-- Every stored constraint means what is written out. -/
theorem residual_eq_writtenOut {i : ℕ} (below : i < layout.constraintCount) :
    (onLayout p layout).residual G V i = writtenOut layout.serialSize p.hClass G V i := by
  have long := layout.three_le_serialSize
  rw [layout.constraintCount_eq] at below
  rcases Nat.lt_succ_iff_lt_or_eq.mp below with checked | rfl
  · clear below
    revert i
    apply Layout.forall_checked
    case complement =>
      intro k below
      rw [residual_complement G V below, writtenOut, if_pos below]
    case product =>
      intro k below
      rw [residual_product G V below, writtenOut, if_neg (by omega), if_pos (by omega),
        Nat.add_sub_cancel_left]
    case recurrence =>
      intro k below
      rw [residual_recurrence G V below, writtenOut, if_neg (by omega), if_neg (by omega),
        if_pos (by omega), Nat.add_sub_cancel_left]
    case anchor =>
      rw [residual_anchor G V, writtenOut, if_neg (by omega), if_neg (by omega),
        if_neg (by omega), if_pos rfl]
    case chain =>
      intro k below
      rw [residual_chain G V below]
      by_cases last : k + 3 = layout.serialSize
      · have left : layout.serialSize + (k + 1) = 2 * layout.serialSize - 2 := by omega
        have product : layout.serialSize + k = 2 * layout.serialSize - 3 := by omega
        rw [if_pos (layout.succ_eq_lastStep_iff.mpr last), left, product, writtenOut,
          if_neg (by omega), if_neg (by omega), if_neg (by omega), if_neg (by omega),
          if_neg (by omega), if_pos (by omega)]
      · rw [if_neg (mt layout.succ_eq_lastStep_iff.mp last), one_mul, writtenOut,
          if_neg (by omega), if_neg (by omega), if_neg (by omega), if_neg (by omega),
          if_pos (by omega), Nat.add_sub_cancel_left]
        rfl
  · unfold Layout.checkedCount
    rw [writtenOut, if_neg (by omega), if_neg (by omega), if_neg (by omega), if_neg (by omega),
      if_neg (by omega), if_neg (by omega)]
    exact residual_selection G V

end LinearSystem

/-! ## What is stored -/

namespace Constraint

variable {q : ℕ} {layout : Layout} {i : ℕ}

/-- The constraint number `i` as it is kept: no coefficient is zero, no wire is named twice, and the
    serial number scales the product in the last checked constraint and nothing else. -/
structure Stored (layout : Layout) (i : ℕ) (c : Constraint) : Prop where
  nonzero : ∀ term ∈ c.terms, term.coefficient.value ≠ 0
  distinct : (c.terms.map fun term => term.wire).Nodup
  scaled : ∀ term ∈ c.terms, term.serialScaled = true ↔ term.wire = .c ∧ i = layout.lastLink

theorem stored_ofTerms {kind : ConstraintFamily} {terms : List Term} {constant : Residue}
    (distinct : (terms.map fun term => term.wire).Nodup)
    (scaled : ∀ term ∈ terms,
      term.serialScaled = true ↔ term.wire = .c ∧ i = layout.lastLink) :
    (ofTerms kind terms constant).Stored layout i where
  nonzero := by
    intro term kept
    simpa [isZero] using (List.mem_filter.mp kept).2
  distinct := distinct.sublist (List.filter_sublist.map _)
  scaled := fun term kept => scaled term (List.mem_of_mem_filter kept)

theorem stored_of_row [NeZero q] {h : ZMod q} {c : Constraint}
    (row : (systemRows layout h)[i]? = some c) : c.Stored layout i := by
  have long := layout.three_le_serialSize
  have link : layout.lastLink = 4 * layout.serialSize - 3 := rfl
  refine forall_systemRows (motive := fun i c => c.Stored layout i) h
    ?complement ?product ?recurrence ?anchor ?chain ?selection row
  case complement =>
    intro k _
    exact stored_ofTerms (by simp) (by simp)
  case product =>
    intro k below
    have before : layout.serialSize + k ≠ layout.lastLink := by omega
    exact stored_ofTerms (by simp) (by simp [before])
  case recurrence =>
    intro k _
    exact stored_ofTerms (by simp) (by simp)
  case anchor =>
    exact stored_ofTerms (by simp) (by simp)
  case chain =>
    intro k _
    have last : k + 1 = layout.lastStep ↔ 3 * layout.serialSize + k = layout.lastLink := by
      rw [layout.succ_eq_lastStep_iff]
      omega
    exact stored_ofTerms (by simp) (by simp [last])
  case selection =>
    have after : layout.checkedCount ≠ layout.lastLink := Nat.ne_of_gt layout.lastLink_lt
    exact stored_ofTerms (by simp) (by simp [after])

end Constraint

section

variable {q : ℕ} [NeZero q] [Fact (1 < q)] (layout : Layout) (h : ZMod q)

/-- The serial number scales one term of the last checked constraint, and nothing else. -/
theorem countP_serialScaled {i : ℕ} {c : Constraint} (row : (systemRows layout h)[i]? = some c) :
    c.terms.countP (fun term => term.serialScaled) = if i = layout.lastLink then 1 else 0 := by
  have long := layout.three_le_serialSize
  by_cases link : i = layout.lastLink
  · obtain ⟨k, last⟩ : ∃ k, k + 3 = layout.serialSize := ⟨layout.serialSize - 3, by omega⟩
    have index : i = 3 * layout.serialSize + k := by
      rw [link, Layout.lastLink]
      omega
    have step : k + 1 = layout.lastStep := layout.succ_eq_lastStep_iff.mpr last
    rw [index, systemRows_chain h (by omega), Option.some.injEq] at row
    rw [if_pos link, ← row]
    simp [chainRow, Constraint.ofTerms, isZero_ofZMod, step]
  · rw [if_neg link, List.countP_eq_zero]
    intro term kept scaled
    exact link (((Constraint.stored_of_row row).scaled term kept).mp scaled).2

/-- A recurrence is short of a term if the power in it is one. -/
theorem length_recurrenceRow (k : ℕ) :
    (recurrenceRow layout h k).terms.length + (if h ^ 2 ^ (k + 1) = 1 then 1 else 0) = 2 := by
  by_cases one : h ^ 2 ^ (k + 1) = 1
  · simp [recurrenceRow, Constraint.ofTerms, isZero_ofZMod, one]
  · simp [recurrenceRow, Constraint.ofTerms, isZero_ofZMod, one, sub_eq_zero]

/-- The number of terms, family by family. -/
theorem length_systemRows_terms (notOne : h ≠ 1) :
    ((systemRows layout h).flatMap fun c => c.terms).length
        + ((Finset.Ico 1 layout.serialSize).filter fun j => h ^ 2 ^ j = 1).card
      = 7 * layout.serialSize - 3 := by
  have long := layout.three_le_serialSize
  have complements : ((List.range layout.serialSize).map fun k =>
      (complementRow q layout k).terms.length).sum = layout.serialSize * 2 := by
    simp [complementRow, Constraint.ofTerms, isZero_ofZMod]
  have products : ((List.range layout.serialSize).map fun k =>
      (productRow q layout k).terms.length).sum = layout.serialSize := by
    simp [productRow, Constraint.ofTerms, isZero_ofZMod]
  have recurrences : ((List.range (layout.serialSize - 1)).map fun k =>
        (recurrenceRow layout h k).terms.length).sum
      + ((Finset.Ico 1 layout.serialSize).filter fun j => h ^ 2 ^ j = 1).card
      = (layout.serialSize - 1) * 2 := by
    rw [sum_map_range, Finset.card_filter, Finset.sum_Ico_eq_sum_range, ← Finset.sum_add_distrib]
    simp only [Nat.add_comm 1, length_recurrenceRow, Finset.sum_const, Finset.card_range,
      smul_eq_mul]
  have anchor : (anchorRow layout h).terms.length = 2 := by
    simp [anchorRow, Constraint.ofTerms, isZero_ofZMod, sub_eq_zero, notOne.symm]
  have chain : ((List.range (layout.serialSize - 2)).map fun k =>
      (chainRow q layout k).terms.length).sum = (layout.serialSize - 2) * 2 := by
    simp [chainRow, Constraint.ofTerms, isZero_ofZMod]
  have selection : (selectionRow q layout).terms.length = 1 := by
    simp [selectionRow, Constraint.ofTerms, isZero_ofZMod]
  simp only [systemRows, List.length_flatMap, List.map_append, List.map_cons, List.map_nil,
    List.map_map, List.sum_append, List.sum_cons, List.sum_nil, Function.comp_def, complements,
    products, anchor, chain, selection]
  omega

end

/-- What is stored for a parameter set: no coefficient that is zero, no wire twice in a constraint,
    a single term that the serial number scales, and a term less for every bit from the second on
    whose power of the second generator is one. -/
structure LinearSystem.Sparse (p : Parameters) (system : LinearSystem) : Prop where
  size : system.constraints.size = 4 * p.serialSize - 1
  nonzero : ∀ c ∈ system.constraints, ∀ term ∈ c.terms, term.coefficient.value ≠ 0
  distinct : ∀ c ∈ system.constraints, (c.terms.map fun term => (term.wire, term.cell)).Nodup
  scaled : ∀ i c, system.constraints[i]? = some c →
    c.terms.countP (fun term => term.serialScaled) = if i = 4 * p.serialSize - 3 then 1 else 0
  termCount : system.termCount + ((Finset.Ico 1 p.serialSize).filter p.Ignores).card
    = 7 * p.serialSize - 3

namespace LinearSystem

variable {p : Parameters} {layout : Layout}

theorem sparse_onLayout (size : layout.serialSize = p.serialSize) :
    (onLayout p layout).Sparse p := by
  have long := layout.three_le_serialSize
  have : Fact (1 < p.field.modulus) := ⟨p.field.two_le_modulus⟩
  have stored {c : Constraint} (member : c ∈ (onLayout p layout).constraints) :
      ∃ i, c.Stored layout i := by
    obtain ⟨i, row⟩ := List.getElem?_of_mem (List.mem_toArray.mp member)
    exact ⟨i, Constraint.stored_of_row row⟩
  constructor
  case size =>
    rw [← size]
    exact (fits_onLayout p layout).size
  case nonzero =>
    intro c member
    obtain ⟨i, stored⟩ := stored member
    exact stored.nonzero
  case distinct =>
    intro c member
    obtain ⟨i, stored⟩ := stored member
    apply List.Nodup.of_map Prod.fst
    rw [List.map_map]
    exact stored.distinct
  case scaled =>
    intro i c row
    have count := countP_serialScaled layout p.hClass ((List.getElem?_toArray ..).symm.trans row)
    rwa [Layout.lastLink, size] at count
  case termCount =>
    have notOne : p.hClass ≠ 1 := by
      have tells := p.not_ignores_zero
      rwa [Parameters.ignores_iff, pow_zero, pow_one] at tells
    have count := length_systemRows_terms layout p.hClass notOne
    simp only [← Parameters.ignores_iff, size] at count
    exact count

/-- A system that is built for a parameter set is stored sparsely, and what each of its constraints
    is off by for a serial number and any wires of the field is what is written out. -/
theorem stores_writtenOut {system : LinearSystem} (built : ofParameters p = .ok system) :
    system.Sparse p ∧
      ∀ (serial : Residue) (wires : Wires), wires.layout = system.layout → wires.Over p.field →
        ∀ i < 4 * p.serialSize - 1, ∃ sum constant,
          (system.bind serial).evaluate i wires = .ok sum ∧
          (system.bind serial).constant i = .ok constant ∧
          sum.sub constant = .ok (ofZMod (writtenOut p.serialSize p.hClass
            (p.gClass ^ serial.value) (wires.classes p.field.modulus) i)) := by
  obtain ⟨layout, accepted, rfl⟩ := ofParameters_eq_ok_iff.mp built
  have size : layout.serialSize = p.serialSize := (Layout.describes_of_ofShape accepted).serialSize
  refine ⟨sparse_onLayout size, ?_⟩
  intro serial wires same ofField i below
  rw [← size] at below
  obtain ⟨sum, constant, evaluated, constantEq, residual⟩ :=
    BoundSystem.exists_evaluate_eq_ok (serialPower_bind p layout serial) (fits_onLayout p layout)
      (wires.classes p.field.modulus) below
  have classes : Wires.ofClasses ((onLayout p layout).bind serial).system.layout
      (wires.classes p.field.modulus) = wires := by
    have here : wires.layout = ((onLayout p layout).bind serial).system.layout := same
    rw [← here]
    exact (Wires.eq_ofClasses ofField).symm
  have dense : ((onLayout p layout).bind serial).system.residual (p.gClass ^ serial.value)
      (wires.classes p.field.modulus) i = _ := residual_eq_writtenOut _ _ below
  rw [classes] at evaluated
  refine ⟨_, _, evaluated, constantEq, ?_⟩
  rw [sub_ofZMod, residual, dense, size]

/-- With the opposite of one as second generator the powers of two bits out of three are one, which
    leaves 16 terms. The product in the last link is scaled by the power `3 ^ 2` of the serial
    number. -/
theorem stores_writtenOut_opposite :
    let system := onLayout .opposite .seven
    system.termCount = 16 ∧
      ∃ sum constant,
        (system.bind (Parameters.opposite.field.residue 2)).evaluate 9
          (.ofClasses .seven fun _ i => (i : ZMod 7)) = .ok sum ∧
        (system.bind (Parameters.opposite.field.residue 2)).constant 9 = .ok constant ∧
        sum.sub constant = .ok (Parameters.opposite.field.ofInt (4 - 3 ^ 2 * 3)) := by
  intro system
  obtain ⟨sparse, evaluates⟩ := stores_writtenOut ofParameters_opposite
  constructor
  · have short : ((Finset.Ico 1 3).filter Parameters.opposite.Ignores).card = 2 := by decide
    have count : system.termCount + ((Finset.Ico 1 3).filter Parameters.opposite.Ignores).card
        = 7 * 3 - 3 := sparse.termCount
    omega
  · obtain ⟨sum, constant, evaluated, constantEq, difference⟩ :=
      evaluates (Parameters.opposite.field.residue 2) (.ofClasses .seven fun _ i => (i : ZMod 7))
        rfl (Wires.over_ofClasses _) 9 (by decide)
    refine ⟨sum, constant, evaluated, constantEq, difference.trans ?_⟩
    decide

end LinearSystem

end CoinSpend
