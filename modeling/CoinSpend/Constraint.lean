import CoinSpend.Wires

/-!
# Linear constraints

A constraint says that a weighted sum of wire values is a constant. It touches at most two wires,
so it is kept as the list of its terms.

The constraints of a parameter set depend on the parameters alone. With `S` bits there are
`4 * S - 1` of them. For bit `i`, step `k` and the generator `h`:

* `a i - b i = 1` and `c i = 0`, which together with the gate `a i * b i = c i` leave only zero
  and one for `a i`;
* `(h ^ (2 ^ (k + 1)) - 1) * a (k + 1) - b (S + k) = -1`, so that step `k` multiplies by
  `h ^ (2 ^ (k + 1))` if bit `k + 1` is set, and by one if it is not;
* `a S + (1 - h) * b 0 = h`, the same for bit `0` and the first factor of the first step;
* `a (S + k + 1) - c (S + k) = 0`, which hands the product on to the next step; in the last link
  the product is multiplied by the power of the serial number;
* the product of the last step on its own, to be compared with a commitment.

The last constraint is not among the checked ones.

A proof needs the coefficients that the wires of one row of the grid have, column by column. A
projection lists for each column the constraints that have a term on it, in their order, the
final one included.

The constraints are bound to a spend by the power of the first generator that its serial number
selects. This gives each term its coefficient, and each constraint a value for the wires of the
spend.
-/

namespace CoinSpend

/-! ## Constraints -/

/-- The families of constraints. -/
inductive ConstraintFamily where
  /-- The factors of a bit gate differ by one. -/
  | complement
  /-- The product of a bit gate is zero. -/
  | product
  /-- The second factor of a step is the power that its bit selects. -/
  | recurrence
  /-- The first factor of the first step is the power that the lowest bit selects. -/
  | anchor
  /-- The first factor of a step is the product of the step before. -/
  | chain
  /-- Selects the product of the last step, to be compared with a commitment. -/
  | selection
  deriving DecidableEq

/-- A wire with its coefficient. -/
structure Term where
  wire : Wire
  cell : Cell
  coefficient : Residue
  /-- Whether the coefficient is multiplied by the power that a serial number selects. -/
  serialScaled : Bool := false
  deriving DecidableEq

/-- A weighted sum of wires and the constant that it has to be equal to. -/
structure Constraint where
  kind : ConstraintFamily
  terms : List Term
  constant : Residue
  deriving DecidableEq

namespace Constraint

/-- The constraint of the terms whose coefficient is not zero. -/
def ofTerms (kind : ConstraintFamily) (terms : List Term) (constant : Residue) : Constraint :=
  ⟨kind, terms.filter fun term => !term.coefficient.isZero, constant⟩

/-- The terms on one wire. -/
def termsOnWire (constraint : Constraint) (wire : Wire) : List Term :=
  constraint.terms.filter fun term => term.wire == wire

end Constraint

/-! ## The constraints of a parameter set -/

/-- The constraints of a parameter set, with what they were made from. -/
structure LinearSystem where
  shape : Shape
  layout : Layout
  g : Residue
  h : Residue
  constraints : Array Constraint
  deriving DecidableEq

namespace LinearSystem

/-- The factors of every bit gate differ by one. -/
def complements (layout : Layout) (field : PrimeField) : Checked (List Constraint) :=
  (List.range layout.serialSize).mapM fun k => do
    let cell ← layout.bitCell k
    return .ofTerms .complement
      [{ wire := .a, cell, coefficient := field.one },
        { wire := .b, cell, coefficient := field.one.neg }] field.one

/-- The product of every bit gate is zero. -/
def products (layout : Layout) (field : PrimeField) : Checked (List Constraint) :=
  (List.range layout.serialSize).mapM fun k => do
    let cell ← layout.bitCell k
    return .ofTerms .product [{ wire := .c, cell, coefficient := field.one }] field.zero

/-- The second factor of step `k` is selected by bit `k + 1` from `h ^ (2 ^ (k + 1))` and one. -/
def recurrences (layout : Layout) (field : PrimeField) (h : Residue) :
    Checked (List Constraint) := do
  let steps ← Count.sub layout.serialSize 1
  (h.square.squares steps).zipIdx.mapM fun (power, k) => do
    let bit ← layout.bitCell (← Count.add k 1)
    let step ← layout.stepCell k
    return .ofTerms .recurrence
      [{ wire := .a, cell := bit, coefficient := ← power.sub field.one },
        { wire := .b, cell := step, coefficient := field.one.neg }] field.one.neg

/-- The first factor of the first step is selected by bit `0`, which is written as one more than
    the second factor of its gate. -/
def anchor (layout : Layout) (field : PrimeField) (h : Residue) : Checked Constraint := do
  let step ← layout.stepCell 0
  let bit ← layout.bitCell 0
  return .ofTerms .anchor
    [{ wire := .a, cell := step, coefficient := field.one },
      { wire := .b, cell := bit, coefficient := ← field.one.sub h }] h

/-- The first factor of step `k + 1` is the product of step `k`, scaled in the last link. -/
def chain (layout : Layout) (field : PrimeField) : Checked (List Constraint) := do
  let links ← Count.sub layout.serialSize 2
  (List.range links).mapM fun k => do
    let step ← layout.stepCell k
    let next ← Count.add k 1
    let last ← layout.findLastStep
    return .ofTerms .chain
      [{ wire := .a, cell := ← layout.stepCell next, coefficient := field.one },
        { wire := .c, cell := step, coefficient := field.one.neg,
          serialScaled := next == last }] field.zero

/-- Selects the product of the last step. -/
def selection (layout : Layout) (field : PrimeField) : Checked Constraint := do
  let cell ← layout.findLastCell
  return .ofTerms .selection [{ wire := .c, cell, coefficient := field.one }] field.zero

/-- Counts the terms of all constraints. -/
def countTerms (constraints : List Constraint) : Checked Nat :=
  constraints.foldlM (fun sum constraint => Count.add sum constraint.terms.length) 0

/-- The constraints of the parameters, if the circuit fits. There have to be as many as the layout
    says. If someone listens, it is `reported` how many terms they have. -/
def build (reported : Bool) (p : Parameters) : Attempt LayoutError LinearSystem := do
  let layout ← Layout.ofShape p.shape
  let expected ← layout.countConstraints
  let complements ← complements layout p.field
  let products ← products layout p.field
  let recurrences ← recurrences layout p.field p.h
  let anchor ← anchor layout p.field p.h
  let chain ← chain layout p.field
  let selection ← selection layout p.field
  let constraints := complements ++ products ++ recurrences ++ [anchor] ++ chain ++ [selection]
  if constraints.length ≠ expected then
    throw (.fault (.constraintCount constraints.length expected))
  if reported then
    let _ ← countTerms constraints
  return ⟨p.shape, layout, p.g, p.h, constraints.toArray⟩

/-- The constraints of the parameters, built without a report. -/
def ofParameters (p : Parameters) : Attempt LayoutError LinearSystem :=
  build false p

/-- Whether the system has the shape and the generators of the parameters. -/
def Matches (system : LinearSystem) (p : Parameters) : Prop :=
  system.shape = p.shape ∧ system.g = p.g ∧ system.h = p.h

instance (system : LinearSystem) (p : Parameters) : Decidable (system.Matches p) :=
  inferInstanceAs (Decidable (_ ∧ _ ∧ _))

/-- All constraints but the last, which is what `readChecked` answers for a system that is built. -/
def checked (system : LinearSystem) : List Constraint :=
  system.constraints.toList.take system.layout.checkedCount

/-- Reads all constraints but the last, which have to be there. -/
def readChecked (system : LinearSystem) : Checked (List Constraint) := do
  leading system.constraints (← system.layout.countChecked)

/-- The constraint that selects the final wire. -/
def last (system : LinearSystem) : Checked Constraint := do
  entry system.constraints (← system.layout.countChecked)

/-- The number of terms of all constraints, which is what `countTerms` answers. -/
def termCount (system : LinearSystem) : Nat :=
  (system.constraints.toList.flatMap fun constraint => constraint.terms).length

end LinearSystem

/-! ## Constraints by column -/

/-- The coefficient of a wire in the constraint with the given number. -/
structure ColumnEntry where
  constraint : Nat
  coefficient : Residue
  deriving DecidableEq

/-- The coefficients of the wires of a row, column by column. -/
abbrev Projection := Array (Array ColumnEntry)

/-- Adds an entry at the end of a column that has to be there. -/
def Projection.push (projection : Projection) (col : Nat) (entry : ColumnEntry) :
    Checked Projection :=
  if col < projection.size then .ok (projection.modify col fun column => column.push entry)
  else .error (.pastEnd projection.size col)

namespace LinearSystem

/-- The coefficients that one wire has in the gates of a row. -/
def project (system : LinearSystem) (wire : Wire) (row : Nat) : Checked Projection :=
  system.constraints.toList.zipIdx.foldlM (fun projection (constraint, index) =>
    (constraint.termsOnWire wire).foldlM (fun projection term =>
      if term.cell.row = row then projection.push term.cell.col ⟨index, term.coefficient⟩
      else .ok projection) projection)
    (Array.replicate system.layout.columns #[])

/-- The projections of all wires in the gates of a row. -/
def projectAll (system : LinearSystem) (row : Nat) : Checked (Triple Projection) := do
  return ⟨← system.project .a row, ← system.project .b row, ← system.project .c row⟩

end LinearSystem

/-- The two sets of projections that a proof is made with. -/
structure ProjectionPair where
  first : Triple Projection
  second : Triple Projection
  deriving DecidableEq

/-- Both sets are those of the first row. -/
def ProjectionPair.ofSystem (system : LinearSystem) : Checked ProjectionPair := do
  let first ← system.projectAll 0
  return ⟨first, first⟩

/-! ## Constraints bound to a serial number -/

/-- The constraints of a parameter set and the power of a serial number. -/
structure BoundSystem where
  system : LinearSystem
  serialPower : Residue

/-- Binds the constraints to a serial number. -/
def LinearSystem.bind (system : LinearSystem) (serial : Residue) : BoundSystem :=
  ⟨system, system.g.pow serial.value⟩

namespace BoundSystem

/-- The coefficient of a term for the bound serial number. -/
def coefficient (bound : BoundSystem) (term : Term) : Checked Residue :=
  if term.serialScaled then term.coefficient.mul bound.serialPower else .ok term.coefficient

/-- The weighted sum of the terms over the values of the wires. -/
def weightedSum (bound : BoundSystem) (wires : Wires) (zero : Residue) (terms : List Term) :
    Checked Residue :=
  terms.foldlM (fun sum term => do
    let coefficient ← bound.coefficient term
    sum.add (← coefficient.mul (← wires.read term.wire term.cell))) zero

/-- The weighted sum of the constraint with the given number. -/
def evaluate (bound : BoundSystem) (index : Nat) (wires : Wires) : Checked Residue := do
  let constraint ← entry bound.system.constraints index
  bound.weightedSum wires constraint.constant.zero constraint.terms

/-- The constant of the constraint with the given number. -/
def constant (bound : BoundSystem) (index : Nat) : Checked Residue := do
  return (← entry bound.system.constraints index).constant

end BoundSystem

end CoinSpend
