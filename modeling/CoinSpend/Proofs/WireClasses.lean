import CoinSpend.Proofs.Layouts
import CoinSpend.Proofs.ResidueClasses
import CoinSpend.Wires

/-!
# Wires by class

When all wires hold residues of one field, they are given by a function from wires and positions
to classes. Reading, overwriting and collecting the wires are then operations on that function.
-/

namespace CoinSpend

instance (field : PrimeField) : NeZero field.modulus :=
  ⟨Nat.ne_of_gt (Nat.lt_of_lt_of_le Nat.two_pos field.two_le_modulus)⟩

namespace Triple

variable {α : Type}

@[simp] theorem on_ofFn (f : Wire → α) (wire : Wire) : (ofFn f).on wire = f wire := by
  cases wire <;> rfl

theorem ofFn_on (t : Triple α) : ofFn t.on = t := rfl

@[simp] theorem a_ofFn (f : Wire → α) : (ofFn f).a = f .a := rfl

@[simp] theorem b_ofFn (f : Wire → α) : (ofFn f).b = f .b := rfl

@[simp] theorem c_ofFn (f : Wire → α) : (ofFn f).c = f .c := rfl

theorem set_ofFn (f : Wire → α) (wire : Wire) (value : α) :
    (ofFn f).set wire value = ofFn (Function.update f wire value) := by
  cases wire <;> rfl

end Triple

/-- Whether every wire holds a residue of the field. -/
def Wires.Over (field : PrimeField) (wires : Wires) : Prop :=
  ∀ wire cell value, wires.value? wire cell = some value → field.Contains value

section

variable {α : Type}

/-- `V` with another value on one wire at one position. -/
def setClass (V : Wire → ℕ → α) (wire : Wire) (i : ℕ) (z : α) : Wire → ℕ → α :=
  Function.update V wire (Function.update (V wire) i z)

theorem setClass_same (V : Wire → ℕ → α) (wire : Wire) (i : ℕ) (z : α) :
    setClass V wire i z wire i = z := by
  simp [setClass]

theorem setClass_of_ne (V : Wire → ℕ → α) (wire : Wire) {i j : ℕ} (h : j ≠ i) (z : α)
    (other : Wire) : setClass V wire i z other j = V other j := by
  by_cases same : other = wire
  · subst same
    simp [setClass, Function.update_of_ne h]
  · simp [setClass, Function.update_of_ne same]

theorem setClass_of_wire_ne (V : Wire → ℕ → α) {wire other : Wire} (h : other ≠ wire) (i : ℕ)
    (z : α) (j : ℕ) : setClass V wire i z other j = V other j := by
  simp [setClass, Function.update_of_ne h]

end

section

variable {q : ℕ} [NeZero q]

/-- The triple of residues with the given classes. -/
def classTriple (v : Wire → ZMod q) : Triple Residue :=
  .ofFn fun wire => .ofZMod (v wire)

/-- The grid whose triple at position `i` has the classes `V · i`. -/
def classGrid (rows columns : ℕ) (V : Wire → ℕ → ZMod q) : Grid rows columns (Triple Residue) :=
  .tabulate rows columns fun i => classTriple fun wire => V wire i

@[simp] theorem classTriple_on (v : Wire → ZMod q) (wire : Wire) :
    (classTriple v).on wire = .ofZMod (v wire) :=
  Triple.on_ofFn _ wire

theorem classTriple_inj {v w : Wire → ZMod q} :
    classTriple v = classTriple w ↔ ∀ wire, v wire = w wire := by
  constructor
  · intro same wire
    have here := congrArg (fun t => Triple.on t wire) same
    rwa [classTriple_on, classTriple_on, Residue.ofZMod_inj] at here
  · intro same
    exact congrArg classTriple (funext same)

theorem classTriple_set (v : Wire → ZMod q) (wire : Wire) (z : ZMod q) :
    (classTriple v).set wire (.ofZMod z) = classTriple (Function.update v wire z) := by
  rw [classTriple, Triple.set_ofFn]
  congr 1
  funext other
  by_cases same : other = wire
  · subst same
    simp
  · simp [Function.update_of_ne same]

/-- Overwriting one wire of one triple is overwriting one class. -/
theorem tabulate_update_set (rows columns : ℕ) (V : Wire → ℕ → ZMod q) (wire : Wire) (i : ℕ)
    (z : ZMod q) :
    Grid.tabulate rows columns (Function.update (fun j => classTriple fun wire => V wire j) i
        ((classTriple fun wire => V wire i).set wire (.ofZMod z)))
      = classGrid rows columns (setClass V wire i z) := by
  apply Grid.tabulate_congr
  intro j _
  by_cases here : j = i
  · subst here
    rw [Function.update_self, classTriple_set]
    congr 1
    funext other
    by_cases same : other = wire
    · subst same
      rw [Function.update_self, setClass_same]
    · rw [Function.update_of_ne same, setClass_of_wire_ne V same]
  · rw [Function.update_of_ne here]
    congr 1
    funext other
    exact (setClass_of_ne V wire here z other).symm

end

namespace Wires

variable {q : ℕ} [NeZero q] {layout : Layout}

/-- The wires over a layout with the given classes. -/
def ofClasses (layout : Layout) (V : Wire → ℕ → ZMod q) : Wires :=
  ⟨layout, classGrid layout.rows layout.columns V⟩

@[simp] theorem layout_ofClasses (V : Wire → ℕ → ZMod q) : (ofClasses layout V).layout = layout :=
  rfl

theorem get?_ofClasses (V : Wire → ℕ → ZMod q) {cell : Cell}
    (h : cell.Inside layout.rows layout.columns) :
    (ofClasses layout V).gates.get? cell
      = some (classTriple fun wire => V wire (cell.position layout.columns)) :=
  Grid.get?_tabulate _ h

theorem get?_cell (V : Wire → ℕ → ZMod q) {i : ℕ} (below : i < layout.rows * layout.columns) :
    (ofClasses layout V).gates.get? (layout.cell i) = some (classTriple fun wire => V wire i) := by
  rw [get?_ofClasses V (layout.inside_cell below), layout.position_cell]

theorem value?_ofClasses (V : Wire → ℕ → ZMod q) (wire : Wire) {cell : Cell}
    (h : cell.Inside layout.rows layout.columns) :
    (ofClasses layout V).value? wire cell
      = some (.ofZMod (V wire (cell.position layout.columns))) := by
  rw [value?, get?_ofClasses V h, Option.map_some, classTriple_on]

theorem value?_cell (V : Wire → ℕ → ZMod q) (wire : Wire) {i : ℕ}
    (below : i < layout.rows * layout.columns) :
    (ofClasses layout V).value? wire (layout.cell i) = some (.ofZMod (V wire i)) := by
  rw [value?_ofClasses V wire (layout.inside_cell below), layout.position_cell]

theorem read_ofClasses (V : Wire → ℕ → ZMod q) (wire : Wire) {cell : Cell}
    (h : cell.Inside layout.rows layout.columns) :
    (ofClasses layout V).read wire cell
      = .ok (.ofZMod (V wire (cell.position layout.columns))) := by
  have here : (ofClasses layout V).gates.read cell
      = .ok (classTriple fun wire => V wire (cell.position layout.columns)) :=
    Grid.read_tabulate _ h
  rw [read, here, ok_bind, classTriple_on]
  rfl

theorem set_ofClasses (V : Wire → ℕ → ZMod q) (wire : Wire) {cell : Cell}
    (h : cell.Inside layout.rows layout.columns) (z : ZMod q) :
    (ofClasses layout V).set wire cell (.ofZMod z)
      = .ok (ofClasses layout (setClass V wire (cell.position layout.columns) z)) := by
  have here : (ofClasses layout V).gates.modify? cell (fun gate => gate.set wire (.ofZMod z)) = _ :=
    Grid.modify?_tabulate _ h _
  rw [set, here, tabulate_update_set]
  rfl

/-- The final wire is the product of the last step. -/
theorem final_ofClasses (V : Wire → ℕ → ZMod q) :
    (ofClasses layout V).final = .ok (.ofZMod (V .c (2 * layout.serialSize - 2))) := by
  have size := layout.three_le_serialSize
  have used := layout.usedCount_le
  have below : 2 * layout.serialSize - 2 < layout.rows * layout.columns := by
    unfold Layout.usedCount at used
    omega
  rw [final, layout_ofClasses, layout.findLastCell_eq_ok, ok_bind, layout.lastCell_eq,
    read_ofClasses V .c (layout.inside_cell below),
    layout.position_cell]

theorem over_ofClasses {field : PrimeField} (V : Wire → ℕ → ZMod field.modulus) :
    (ofClasses layout V).Over field := by
  intro wire cell value present
  by_cases inside : cell.Inside layout.rows layout.columns
  · rw [value?_ofClasses V wire inside, Option.some.injEq] at present
    rw [← present]
    rfl
  · have outside : (ofClasses layout V).gates.get? cell = none := Grid.get?_outside _ inside
    rw [value?, outside] at present
    cases present

/-- The classes of the values on the wires, by the positions of the gates. -/
def classes (q : ℕ) (wires : Wires) (wire : Wire) (i : ℕ) : ZMod q :=
  ((wires.value? wire (wires.layout.cell i)).map (Residue.toZMod q)).getD 0

/-- Wires that all hold residues of one field are given by their classes. -/
theorem eq_ofClasses {field : PrimeField} {wires : Wires} (h : wires.Over field) :
    wires = ofClasses wires.layout (wires.classes field.modulus) := by
  obtain ⟨layout, gates⟩ := wires
  simp only [ofClasses, mk.injEq, true_and, heq_eq_eq]
  refine Grid.eq_tabulate_iff.mpr ?_
  intro cell inside
  have same := Layout.cell_position inside
  obtain ⟨gate, present⟩ := gates.exists_get?_eq_some inside
  have contained (wire : Wire) : (gate.on wire).modulus = field.modulus :=
    h wire cell (gate.on wire) (by simp [value?, present])
  rw [present, Option.some.injEq, ← Triple.ofFn_on gate]
  congr 1
  funext wire
  simp [classes, value?, same, present, Residue.ofZMod_toZMod (contained wire)]

theorem exists_eq_ofClasses {field : PrimeField} {wires : Wires}
    (sameLayout : wires.layout = layout) (h : wires.Over field) :
    ∃ V : Wire → ℕ → ZMod field.modulus, wires = ofClasses layout V := by
  subst sameLayout
  exact ⟨_, eq_ofClasses h⟩

end Wires

end CoinSpend
