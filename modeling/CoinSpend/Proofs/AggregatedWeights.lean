import CoinSpend.Challenge
import CoinSpend.Proofs.ChallengePowers

/-!
# Aggregated weights

The weight that a challenge gives to every wire: the gates are collected with the opposite sign,
and every checked constraint adds its coefficients times its own power.
-/

namespace CoinSpend

open Residue

section

variable {α : Type}

/-- Writes `v i` on `wire` at every position `i` of a list. -/
def writeClasses (wire : Wire) (v : ℕ → α) (V : Wire → ℕ → α) (positions : List ℕ) :
    Wire → ℕ → α :=
  positions.foldl (fun V i => setClass V wire i (v i)) V

theorem writeClasses_mem {wire : Wire} {v : ℕ → α} {V : Wire → ℕ → α} {positions : List ℕ} {i : ℕ}
    (h : i ∈ positions) : writeClasses wire v V positions wire i = v i := by
  induction positions using List.reverseRecOn with
  | nil => cases h
  | append_singleton earlier last ih =>
    rw [writeClasses, List.foldl_append, List.foldl_cons, List.foldl_nil]
    by_cases here : i = last
    · rw [here, setClass_same]
    · rw [setClass_of_ne _ _ here]
      rcases List.mem_append.mp h with before | now
      · exact ih before
      · exact absurd (List.mem_singleton.mp now) here

theorem writeClasses_of_wire_ne {wire other : Wire} (v : ℕ → α) (V : Wire → ℕ → α)
    (positions : List ℕ) (h : other ≠ wire) (i : ℕ) :
    writeClasses wire v V positions other i = V other i := by
  induction positions generalizing V with
  | nil => rfl
  | cons first later ih =>
    rw [writeClasses, List.foldl_cons]
    exact (ih _).trans (setClass_of_wire_ne V h first (v first) i)

end

/-- The positions of a grid, row by row. -/
def positions (rows columns : ℕ) : List ℕ :=
  (List.range rows).flatMap fun m => (List.range columns).map fun col => m * columns + col

theorem mem_positions {rows columns i : ℕ} (h : i < rows * columns) :
    i ∈ positions rows columns := by
  have inside := Cell.inside_ofPosition h
  simp only [positions, List.mem_flatMap, List.mem_map, List.mem_range]
  exact ⟨i / columns, inside.1, i % columns, inside.2, Nat.div_add_mod' i columns⟩

section

variable {q : ℕ} [NeZero q]

/-- The class that is `z` on one wire at one position, and zero elsewhere. -/
def singleClass (wire : Wire) (i : ℕ) (z : ZMod q) : Wire → ℕ → ZMod q :=
  Pi.single wire (Pi.single i z)

omit [NeZero q] in
theorem setClass_add (V : Wire → ℕ → ZMod q) (wire : Wire) (i : ℕ) (z : ZMod q) :
    setClass V wire i (V wire i + z) = V + singleClass wire i z := by
  funext other j
  by_cases sameWire : other = wire
  · subst sameWire
    by_cases here : j = i
    · subst here
      simp [setClass_same, singleClass]
    · simp [setClass_of_ne _ _ here, singleClass, here]
  · simp [setClass_of_wire_ne _ sameWire, singleClass, sameWire]

theorem update_classGrid {rows columns : ℕ} (V : Wire → ℕ → ZMod q) (wire : Wire) {cell : Cell}
    (inside : cell.Inside rows columns) (z : ZMod q)
    {change : Triple Residue → Checked (Triple Residue)}
    (answer : change (classTriple fun wire => V wire (cell.position columns))
      = .ok ((classTriple fun wire => V wire (cell.position columns)).set wire (ofZMod z))) :
    (classGrid rows columns V).update cell change
      = .ok (classGrid rows columns (setClass V wire (cell.position columns) z)) := by
  rw [classGrid, Grid.update_tabulate _ inside answer, tabulate_update_set]

/-! ## The gates -/

/-- The weight of the product of the gate at a position. -/
def productWeight (y : ZMod q) (rows columns i : ℕ) : ZMod q :=
  -y ^ gateExponent rows columns i

private theorem weighRow_eq_ok (y : ZMod q) {rows columns count m : ℕ} (long : rows + 1 ≤ count)
    (countable : count < Count.limit) (row : m < rows) (V : Wire → ℕ → ZMod q) :
    ((List.range columns).map fun col => ofZMod (y ^ (rows * (col + 1)))).zipIdx.foldlM
        (fun weights (columnPower, col) => do
          let weight ← (← entry ((List.range count).map fun k => ofZMod (y ^ k)).toArray
            (← Count.add m 1)).mul columnPower
          weights.update ⟨m, col⟩ fun triple => .ok (triple.set .c weight.neg))
        (classGrid rows columns V)
      = .ok (classGrid rows columns (writeClasses .c (productWeight y rows columns) V
          ((List.range columns).map fun col => m * columns + col))) := by
  rw [zipIdx_map_range, List.foldlM_map, writeClasses, List.foldl_map]
  apply foldlM_rep (classGrid rows columns)
  intro V col member
  have inside : (⟨m, col⟩ : Cell).Inside rows columns := ⟨row, List.mem_range.mp member⟩
  have weight : (ofZMod (y ^ (m + 1) * y ^ (rows * (col + 1)))).neg
      = ofZMod (productWeight y rows columns (m * columns + col)) := by
    rw [neg_ofZMod, ← pow_add, productWeight, gateExponent_row inside.2]
  simp only [Count.add_eq_ok (show m + 1 < Count.limit by omega),
    entry_range _ (show m + 1 < count by omega), ok_bind, mul_ofZMod, weight]
  exact update_classGrid V .c inside _ rfl

theorem weighGates_eq_ok (y : ZMod q) {rows columns count : ℕ} (long : rows + 1 ≤ count)
    (countable : count < Count.limit) (V : Wire → ℕ → ZMod q) :
    weighGates ((List.range count).map fun k => ofZMod (y ^ k)).toArray
        ((List.range columns).map fun col => ofZMod (y ^ (rows * (col + 1))))
        (classGrid rows columns V)
      = .ok (classGrid rows columns
          (writeClasses .c (productWeight y rows columns) V (positions rows columns))) := by
  rw [weighGates, writeClasses, positions, List.foldl_flatMap]
  apply foldlM_rep (classGrid rows columns)
  intro V m member
  exact weighRow_eq_ok y long countable (List.mem_range.mp member) V

/-! ## The constraints -/

/-- What one constraint adds to the weights of the wires, weighted by `z`. -/
def rowWeights (columns : ℕ) (G z : ZMod q) (c : Constraint) : Wire → ℕ → ZMod q :=
  (c.terms.map fun term =>
    singleClass term.wire (term.cell.position columns) (term.weight q G * z)).sum

/-- What all checked constraints add to the weights of the wires. -/
def checkedWeights (system : LinearSystem) (G y : ZMod q) : Wire → ℕ → ZMod q :=
  (system.checked.zipIdx.map fun (c, i) =>
    rowWeights system.layout.columns G (y ^ (system.layout.linearOffset + i)) c).sum

variable {bound : BoundSystem} {G : ZMod q}

private theorem weighTerms_eq_ok (power : bound.serialPower = ofZMod G) {layout : Layout}
    {c : Constraint} (fits : c.Fits q layout) (z : ZMod q) (V : Wire → ℕ → ZMod q) :
    c.terms.foldlM (fun weights term => do
        let change ← (← bound.coefficient term).mul (ofZMod z)
        weights.update term.cell fun triple => do
          return triple.set term.wire (← (triple.on term.wire).add change))
        (classGrid layout.rows layout.columns V)
      = .ok (classGrid layout.rows layout.columns (V + rowWeights layout.columns G z c)) := by
  apply foldlM_add (classGrid layout.rows layout.columns)
  intro V term member
  have change := BoundSystem.coefficient_eq_ok power (fits.coefficient term member)
  rw [change, ok_bind, mul_ofZMod, ok_bind, ← setClass_add]
  apply update_classGrid V term.wire (fits.cell term member)
  rw [classTriple_on, add_ofZMod]
  rfl

theorem weighConstraints_eq_ok (power : bound.serialPower = ofZMod G) (fits : bound.system.Fits q)
    (y : ZMod q) (V : Wire → ℕ → ZMod q) :
    bound.weighConstraints
        ((List.range bound.system.layout.powerCount).map fun k => ofZMod (y ^ k)).toArray
        bound.system.layout.linearOffset
        (classGrid bound.system.layout.rows bound.system.layout.columns V)
      = .ok (classGrid bound.system.layout.rows bound.system.layout.columns
          (V + checkedWeights bound.system G y)) := by
  rw [BoundSystem.weighConstraints, fits.readChecked_eq_ok, ok_bind, checkedWeights]
  apply foldlM_add (classGrid bound.system.layout.rows bound.system.layout.columns)
  intro V numbered member
  obtain ⟨c, i⟩ := numbered
  obtain ⟨below, row⟩ := fits.of_mem_zipIdx member
  have within := bound.system.layout.linearOffset_add_lt below
  have countable := Nat.lt_trans within bound.system.layout.powerCount_lt_limit
  dsimp only
  rw [Count.add_eq_ok countable, ok_bind, entry_range _ within, ok_bind]
  exact weighTerms_eq_ok power row _ V

/-- The weights of all wires for the challenge with class `y`. -/
def wireWeights (system : LinearSystem) (G y : ZMod q) : Wire → ℕ → ZMod q :=
  writeClasses .c (productWeight y system.layout.rows system.layout.columns) 0
      (positions system.layout.rows system.layout.columns)
    + checkedWeights system G y

theorem weights_eq_ok (power : bound.serialPower = ofZMod G) (fits : bound.system.Fits q)
    (y : ZMod q) :
    bound.weights
        ((List.range bound.system.layout.powerCount).map fun k => ofZMod (y ^ k)).toArray
        ((List.range bound.system.layout.columns).map fun col =>
          ofZMod (y ^ (bound.system.layout.rows * (col + 1))))
        bound.system.layout.linearOffset
      = .ok (classGrid bound.system.layout.rows bound.system.layout.columns
          (wireWeights bound.system G y)) := by
  have table := bound.system.layout.cells_lt_powerCount
  have long : bound.system.layout.rows + 1 ≤ bound.system.layout.powerCount := by omega
  have blank : bound.system.layout.filled ⟨ofZMod 0, ofZMod 0, ofZMod 0⟩
      = .ok (classGrid bound.system.layout.rows bound.system.layout.columns
          (0 : Wire → ℕ → ZMod q)) :=
    Grid.filled_eq_ok bound.system.layout.cells_lt_limit
  rw [BoundSystem.weights, entry_range _ (show 0 < bound.system.layout.powerCount by omega),
    ok_bind]
  simp only [zero_ofZMod]
  rw [blank, ok_bind, weighGates_eq_ok y long bound.system.layout.powerCount_lt_limit, ok_bind,
    weighConstraints_eq_ok power fits]
  rfl

/-! ## The constant -/

/-- The constants of the checked constraints, each with its own power of `y`. -/
def constantSum (system : LinearSystem) (y : ZMod q) : ZMod q :=
  (system.checked.zipIdx.map fun (c, i) =>
    c.constant.toZMod q * y ^ (system.layout.linearOffset + i)).sum

theorem weightedConstant_eq_ok {system : LinearSystem} (fits : system.Fits q) (y : ZMod q) :
    weightedConstant (system.checked.map fun c => c.constant)
        ((List.range system.layout.powerCount).map fun k => ofZMod (y ^ k)).toArray
        system.layout.linearOffset
      = .ok (ofZMod (constantSum system y)) := by
  have table := system.layout.cells_lt_powerCount
  have some : 0 < system.layout.powerCount := by omega
  rw [weightedConstant, entry_range _ some, ok_bind, List.zipIdx_map, List.foldlM_map,
    zero_ofZMod]
  dsimp only [Prod.map, id_eq]
  rw [foldlM_add ofZMod fun (c, i) => c.constant.toZMod q * y ^ (system.layout.linearOffset + i)]
  · rw [zero_add]
    rfl
  · intro sum numbered member
    obtain ⟨c, i⟩ := numbered
    obtain ⟨below, row⟩ := fits.of_mem_zipIdx member
    have within := system.layout.linearOffset_add_lt below
    have countable := Nat.lt_trans within system.layout.powerCount_lt_limit
    dsimp only
    rw [Count.add_eq_ok countable, ok_bind, entry_range _ within, ok_bind,
      ← ofZMod_toZMod row.constant, mul_ofZMod, ok_bind, add_ofZMod,
      toZMod_ofZMod]

end

end CoinSpend
