import CoinSpend.Constraint
import CoinSpend.Proofs.WireClasses

/-!
# The rows of a constraint system

The constraints that are built for a parameter set, family by family and by their numbers.
-/

namespace CoinSpend

open Residue

namespace PrimeField

variable (field : PrimeField)

theorem residue_eq (n : ℕ) : field.residue n = ofZMod (n : ZMod field.modulus) := by
  rw [eq_ofZMod_iff]
  exact ⟨rfl, ZMod.natCast_mod n field.modulus⟩

theorem residue_value_pow (x : Residue) (k : ℕ) :
    field.residue (x.value ^ k) = ofZMod (x.toZMod field.modulus ^ k) := by
  rw [residue_eq, Nat.cast_pow]
  rfl

theorem residue_mul_pow (x y : Residue) (a b : ℕ) :
    field.residue (x.value ^ a * y.value ^ b)
      = ofZMod (x.toZMod field.modulus ^ a * y.toZMod field.modulus ^ b) := by
  rw [residue_eq, Nat.cast_mul, Nat.cast_pow, Nat.cast_pow]
  rfl

theorem zero_eq : field.zero = ofZMod (0 : ZMod field.modulus) := by
  rw [zero, residue_eq, Nat.cast_zero]

theorem one_eq : field.one = ofZMod (1 : ZMod field.modulus) := by
  rw [one, residue_eq, Nat.cast_one]

end PrimeField

namespace Parameters

/-- The class of the first generator. -/
def gClass (p : Parameters) : ZMod p.field.modulus :=
  p.g.toZMod p.field.modulus

/-- The class of the second generator. -/
def hClass (p : Parameters) : ZMod p.field.modulus :=
  p.h.toZMod p.field.modulus

theorem g_eq (p : Parameters) : p.g = ofZMod p.gClass :=
  (ofZMod_toZMod p.isGenerator_g.1).symm

theorem h_eq (p : Parameters) : p.h = ofZMod p.hClass :=
  (ofZMod_toZMod p.isGenerator_h.1).symm

theorem gClass_ne_zero (p : Parameters) : p.gClass ≠ 0 := by
  have large : 2 ≤ p.g.value := p.isGenerator_g.2
  refine mt (toZMod_eq_zero_iff p.isGenerator_g.1).mp ?_
  omega

theorem hClass_ne_zero (p : Parameters) : p.hClass ≠ 0 := by
  have large : 2 ≤ p.h.value := p.isGenerator_h.2
  refine mt (toZMod_eq_zero_iff p.isGenerator_h.1).mp ?_
  omega

theorem commit_eq_ok (p : Parameters) (serial randomness : Residue) :
    p.commit serial randomness
      = .ok (ofZMod (p.gClass ^ serial.value * p.hClass ^ randomness.value)) := by
  rw [commit, p.g_eq, p.h_eq, jointPower_ofZMod]

/-- The residue of a product of powers of the representatives of the generators. -/
theorem residue_powers (p : Parameters) (a b : ℕ) :
    p.field.residue (p.g.value ^ a * p.h.value ^ b) = ofZMod (p.gClass ^ a * p.hClass ^ b) :=
  p.field.residue_mul_pow p.g p.h a b

end Parameters

/-! ## The constraints one by one -/

section

variable {q : ℕ} [NeZero q]

/-- `a k - b k = 1`. -/
def complementRow (q : ℕ) [NeZero q] (layout : Layout) (k : ℕ) : Constraint :=
  .ofTerms .complement
    [⟨.a, layout.cell k, ofZMod (1 : ZMod q), false⟩,
      ⟨.b, layout.cell k, ofZMod (-1 : ZMod q), false⟩] (ofZMod (1 : ZMod q))

/-- `c k = 0`. -/
def productRow (q : ℕ) [NeZero q] (layout : Layout) (k : ℕ) : Constraint :=
  .ofTerms .product [⟨.c, layout.cell k, ofZMod (1 : ZMod q), false⟩] (ofZMod (0 : ZMod q))

/-- `(h ^ (2 ^ (k + 1)) - 1) * a (k + 1) - b (S + k) = -1`. -/
def recurrenceRow (layout : Layout) (h : ZMod q) (k : ℕ) : Constraint :=
  .ofTerms .recurrence
    [⟨.a, layout.cell (k + 1), ofZMod (h ^ 2 ^ (k + 1) - 1), false⟩,
      ⟨.b, layout.cell (layout.serialSize + k), ofZMod (-1 : ZMod q), false⟩]
    (ofZMod (-1 : ZMod q))

/-- `a S + (1 - h) * b 0 = h`. -/
def anchorRow (layout : Layout) (h : ZMod q) : Constraint :=
  .ofTerms .anchor
    [⟨.a, layout.cell layout.serialSize, ofZMod (1 : ZMod q), false⟩,
      ⟨.b, layout.cell 0, ofZMod (1 - h), false⟩] (ofZMod h)

/-- `a (S + k + 1) - c (S + k) = 0`, the product scaled in the last link. -/
def chainRow (q : ℕ) [NeZero q] (layout : Layout) (k : ℕ) : Constraint :=
  .ofTerms .chain
    [⟨.a, layout.cell (layout.serialSize + (k + 1)), ofZMod (1 : ZMod q), false⟩,
      ⟨.c, layout.cell (layout.serialSize + k), ofZMod (-1 : ZMod q), k + 1 == layout.lastStep⟩]
    (ofZMod (0 : ZMod q))

/-- `c` of the last step. -/
def selectionRow (q : ℕ) [NeZero q] (layout : Layout) : Constraint :=
  .ofTerms .selection [⟨.c, layout.lastCell, ofZMod (1 : ZMod q), false⟩] (ofZMod (0 : ZMod q))

/-- All constraints in order. -/
def systemRows (layout : Layout) (h : ZMod q) : List Constraint :=
  (List.range layout.serialSize).map (complementRow q layout)
    ++ ((List.range layout.serialSize).map (productRow q layout)
    ++ ((List.range (layout.serialSize - 1)).map (recurrenceRow layout h)
    ++ (anchorRow layout h :: ((List.range (layout.serialSize - 2)).map (chainRow q layout)
    ++ [selectionRow q layout]))))

end

section

variable {q : ℕ} [NeZero q] {layout : Layout} (h : ZMod q) {k : ℕ}

theorem length_systemRows : (systemRows layout h).length = layout.constraintCount := by
  have size := layout.three_le_serialSize
  simp only [systemRows, Layout.constraintCount, List.length_append, List.length_map,
    List.length_range, List.length_cons, List.length_nil]
  omega

private theorem getElem?_family {α : Type} (f : ℕ → α) {n k : ℕ} (rest : List α) (below : k < n) :
    ((List.range n).map f ++ rest)[k]? = some (f k) := by
  simp [List.getElem?_append, below]

private theorem getElem?_past_family {α : Type} (f : ℕ → α) (n k : ℕ) (rest : List α) :
    ((List.range n).map f ++ rest)[n + k]? = rest[k]? := by
  simp [List.getElem?_append]

theorem systemRows_complement (below : k < layout.serialSize) :
    (systemRows layout h)[k]? = some (complementRow q layout k) :=
  getElem?_family _ _ below

theorem systemRows_product (below : k < layout.serialSize) :
    (systemRows layout h)[layout.serialSize + k]? = some (productRow q layout k) := by
  rw [systemRows, getElem?_past_family, getElem?_family _ _ below]

theorem systemRows_recurrence (below : k + 1 < layout.serialSize) :
    (systemRows layout h)[2 * layout.serialSize + k]? = some (recurrenceRow layout h k) := by
  have index : 2 * layout.serialSize + k = layout.serialSize + (layout.serialSize + k) := by omega
  rw [systemRows, index, getElem?_past_family, getElem?_past_family,
    getElem?_family _ _ (by omega)]

theorem systemRows_anchor :
    (systemRows layout h)[3 * layout.serialSize - 1]? = some (anchorRow layout h) := by
  have size := layout.three_le_serialSize
  have index : 3 * layout.serialSize - 1
      = layout.serialSize + (layout.serialSize + (layout.serialSize - 1 + 0)) := by omega
  rw [systemRows, index, getElem?_past_family, getElem?_past_family, getElem?_past_family,
    List.getElem?_cons_zero]

theorem systemRows_chain (below : k + 2 < layout.serialSize) :
    (systemRows layout h)[3 * layout.serialSize + k]? = some (chainRow q layout k) := by
  have index : 3 * layout.serialSize + k
      = layout.serialSize + (layout.serialSize + (layout.serialSize - 1 + (k + 1))) := by omega
  rw [systemRows, index, getElem?_past_family, getElem?_past_family, getElem?_past_family,
    List.getElem?_cons_succ, getElem?_family _ _ (by omega)]

theorem systemRows_selection :
    (systemRows layout h)[layout.checkedCount]? = some (selectionRow q layout) := by
  have size := layout.three_le_serialSize
  have index : layout.checkedCount = layout.serialSize + (layout.serialSize
      + (layout.serialSize - 1 + (layout.serialSize - 2 + 1))) := by
    unfold Layout.checkedCount
    omega
  rw [systemRows, index, getElem?_past_family, getElem?_past_family, getElem?_past_family,
    List.getElem?_cons_succ]
  exact getElem?_past_family _ (layout.serialSize - 2) 0 _

/-- The rows in their order: a property of numbered rows is one of every family. -/
theorem forall_systemRows {motive : ℕ → Constraint → Prop}
    (complement : ∀ k < layout.serialSize, motive k (complementRow q layout k))
    (product : ∀ k < layout.serialSize, motive (layout.serialSize + k) (productRow q layout k))
    (recurrence : ∀ k, k + 1 < layout.serialSize →
      motive (2 * layout.serialSize + k) (recurrenceRow layout h k))
    (anchor : motive (3 * layout.serialSize - 1) (anchorRow layout h))
    (chain : ∀ k, k + 2 < layout.serialSize →
      motive (3 * layout.serialSize + k) (chainRow q layout k))
    (selection : motive layout.checkedCount (selectionRow q layout))
    {i : ℕ} {c : Constraint} (row : (systemRows layout h)[i]? = some c) : motive i c := by
  have below : i < layout.checkedCount + 1 := by
    rw [← layout.constraintCount_eq, ← length_systemRows h]
    exact (List.getElem?_eq_some_iff.mp row).1
  have known {i : ℕ} {c' : Constraint} (here : (systemRows layout h)[i]? = some c')
      (holds : motive i c') : ∀ c, (systemRows layout h)[i]? = some c → motive i c := by
    intro c row
    obtain rfl := Option.some.inj (here.symm.trans row)
    exact holds
  rcases Nat.lt_succ_iff_lt_or_eq.mp below with checked | rfl
  · refine Layout.forall_checked
      (motive := fun i => ∀ c, (systemRows layout h)[i]? = some c → motive i c)
      ?_ ?_ ?_ ?_ ?_ i checked c row
    · exact fun k below => known (systemRows_complement h below) (complement k below)
    · exact fun k below => known (systemRows_product h below) (product k below)
    · exact fun k below => known (systemRows_recurrence h below) (recurrence k below)
    · exact known (systemRows_anchor h) anchor
    · exact fun k below => known (systemRows_chain h below) (chain k below)
  · exact known (systemRows_selection h) selection c row

end

namespace LinearSystem

variable (layout : Layout) (field : PrimeField)

theorem complements_eq_ok :
    complements layout field
      = .ok ((List.range layout.serialSize).map (complementRow field.modulus layout)) := by
  apply mapM_eq_ok
  intro k member
  rw [layout.bitCell_eq_ok (List.mem_range.mp member), ok_bind]
  simp [complementRow, field.one_eq]

theorem products_eq_ok :
    products layout field
      = .ok ((List.range layout.serialSize).map (productRow field.modulus layout)) := by
  apply mapM_eq_ok
  intro k member
  rw [layout.bitCell_eq_ok (List.mem_range.mp member), ok_bind]
  simp [productRow, field.one_eq, field.zero_eq]

theorem recurrences_eq_ok (h : ZMod field.modulus) :
    recurrences layout field (ofZMod h)
      = .ok ((List.range (layout.serialSize - 1)).map (recurrenceRow layout h)) := by
  have long := layout.three_le_serialSize
  have words := layout.serialSize_lt_limit
  rw [recurrences, Count.sub_eq_ok (by omega), ok_bind, square_ofZMod, squares_ofZMod,
    zipIdx_map_range, List.mapM_map]
  apply mapM_eq_ok
  intro k member
  have below : k + 1 < layout.serialSize := by
    have := List.mem_range.mp member
    omega
  dsimp only [Function.comp_apply]
  rw [Count.add_eq_ok (by omega), ok_bind, layout.bitCell_eq_ok below, ok_bind,
    layout.stepCell_eq_ok below, ok_bind, field.one_eq]
  simp [recurrenceRow, ← pow_mul, ← pow_succ']

theorem anchor_eq_ok (h : ZMod field.modulus) :
    anchor layout field (ofZMod h) = .ok (anchorRow layout h) := by
  have size := layout.three_le_serialSize
  rw [anchor, layout.stepCell_eq_ok (by omega), ok_bind, layout.bitCell_eq_ok (by omega), ok_bind,
    field.one_eq]
  simp [anchorRow]

theorem chain_eq_ok :
    chain layout field
      = .ok ((List.range (layout.serialSize - 2)).map (chainRow field.modulus layout)) := by
  have long := layout.three_le_serialSize
  have words := layout.serialSize_lt_limit
  rw [chain, Count.sub_eq_ok (by omega), ok_bind]
  apply mapM_eq_ok
  intro k member
  have below := List.mem_range.mp member
  rw [layout.stepCell_eq_ok (show k + 1 < layout.serialSize by omega), ok_bind,
    Count.add_eq_ok (by omega), ok_bind, layout.findLastStep_eq_ok, ok_bind,
    layout.stepCell_eq_ok (show k + 1 + 1 < layout.serialSize by omega), ok_bind]
  simp [chainRow, field.one_eq, field.zero_eq]

theorem selection_eq_ok :
    selection layout field = .ok (selectionRow field.modulus layout) := by
  rw [selection, layout.findLastCell_eq_ok, ok_bind]
  simp [selectionRow, field.one_eq, field.zero_eq]

/-- The system of a parameter set on a layout. -/
def onLayout (p : Parameters) (layout : Layout) : LinearSystem :=
  ⟨p.shape, layout, p.g, p.h, (systemRows layout p.hClass).toArray⟩

/-- Without a layout nothing is built. -/
theorem build_of_error {p : Parameters} {failure : Failure LayoutError}
    (refused : Layout.ofShape p.shape = .error failure) (reported : Bool) :
    build reported p = .error failure := by
  rw [build, refused, error_bind]

/-- On a layout the build comes to the constraints of the families in their order, of which there
    are as many as expected. Counting their terms for a report is all that may still fail. -/
theorem build_of_layout {p : Parameters} {layout : Layout}
    (accepted : Layout.ofShape p.shape = .ok layout) (reported : Bool) :
    build reported p = (do
      if reported then
        let _ ← countTerms (systemRows layout p.hClass)
      return onLayout p layout) := by
  have order : (List.range layout.serialSize).map (complementRow p.field.modulus layout)
        ++ (List.range layout.serialSize).map (productRow p.field.modulus layout)
        ++ (List.range (layout.serialSize - 1)).map (recurrenceRow layout p.hClass)
        ++ [anchorRow layout p.hClass]
        ++ (List.range (layout.serialSize - 2)).map (chainRow p.field.modulus layout)
        ++ [selectionRow p.field.modulus layout] = systemRows layout p.hClass := by
    simp [systemRows]
  have all : ¬(systemRows layout p.hClass).length ≠ layout.constraintCount :=
    not_not.mpr (length_systemRows p.hClass)
  rw [build, accepted, ok_bind, layout.countConstraints_eq_ok, p.h_eq]
  simp only [complements_eq_ok, products_eq_ok, recurrences_eq_ok, anchor_eq_ok, chain_eq_ok,
    selection_eq_ok, Attempt.liftM_ok, ok_bind, order, if_neg all, onLayout]
  rw [p.h_eq]

/-- Whether or not it is reported, what is built is the system on the layout of the shape. -/
theorem eq_onLayout_of_build {p : Parameters} {reported : Bool} {system : LinearSystem}
    (built : build reported p = .ok system) :
    ∃ layout, Layout.ofShape p.shape = .ok layout ∧ system = onLayout p layout := by
  cases shape : Layout.ofShape p.shape with
  | error failure =>
    rw [build_of_error shape] at built
    cases built
  | ok layout =>
    rw [build_of_layout shape] at built
    cases reported with
    | false => exact ⟨layout, rfl, (Except.ok.inj built).symm⟩
    | true =>
      obtain ⟨sum, -, made⟩ := bind_eq_ok_iff.mp built
      exact ⟨layout, rfl, (Except.ok.inj made).symm⟩

/-- A built system is the one on the layout of the shape. -/
theorem ofParameters_eq_ok_iff {p : Parameters} {system : LinearSystem} :
    ofParameters p = .ok system ↔
      ∃ layout, Layout.ofShape p.shape = .ok layout ∧ system = onLayout p layout := by
  cases shape : Layout.ofShape p.shape with
  | error failure => simp [ofParameters, build_of_error shape]
  | ok layout => simp [ofParameters, build_of_layout shape, eq_comm]

end LinearSystem

end CoinSpend
