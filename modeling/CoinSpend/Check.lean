import CoinSpend.Challenge

/-!
# Checking the wires of a spend

Four relations are checked in turn, and the first that fails is reported: every gate multiplies,
the product of the last step is the commitment, every checked constraint holds, and so does the
equation that folds them all. A failed gate or constraint is the first one in its order.
-/

namespace CoinSpend

/-- The relation that failed first. -/
inductive CheckError where
  | gate (cell : Cell)
  | commitment (cell : Cell)
  | constraint (index : Nat)
  | aggregation
  deriving DecidableEq

namespace CheckError

/-- A number for each kind of relation. -/
def code : CheckError → Nat
  | gate _ => 1
  | commitment _ => 2
  | constraint _ => 3
  | aggregation => 4

/-- What is said about a failed relation. -/
def message : CheckError → String
  | gate cell =>
      "hadamard relation fails at cell (" ++ toString cell.row ++ ", " ++ toString cell.col ++ ")"
  | commitment cell =>
      "final wire at (" ++ toString cell.row ++ ", " ++ toString cell.col
        ++ ") does not open the coin commitment"
  | constraint index => "linear constraint " ++ toString index ++ " is not satisfied"
  | aggregation => "aggregated identity does not hold"

end CheckError

/-- Every gate multiplies. -/
def Wires.checkGates (wires : Wires) : Attempt CheckError Unit :=
  wires.gates.cells.forM fun (cell, gate) => do
    let product ← gate.a.mul gate.b
    if product ≠ gate.c then
      throw (.refused (.gate cell))

/-- The product of the last step is the commitment. -/
def Wires.checkCommitment (wires : Wires) (commitment : Residue) : Attempt CheckError Unit := do
  let cell ← wires.layout.findLastCell
  let final ← wires.final
  if final ≠ commitment then
    throw (.refused (.commitment cell))

/-- Every checked constraint holds. -/
def BoundSystem.checkConstraints (bound : BoundSystem) (wires : Wires) :
    Attempt CheckError Unit := do
  let constraints ← bound.system.readChecked
  (List.range constraints.length).forM fun index => do
    let sum ← bound.evaluate index wires
    let constant ← bound.constant index
    if sum ≠ constant then
      throw (.refused (.constraint index))

namespace Aggregation

/-- The products of the factors of all gates, each of them with the weight of its gate. -/
def gateFold (aggregation : Aggregation) (wires : Wires) : Checked Residue := do
  let first ← entry aggregation.powers 0
  (List.range wires.layout.rows).foldlM (fun total m => do
    let row ← wires.gates.row m
    let inner ← (row.zip aggregation.columnPowers).foldlM (fun sum (gate, columnPower) => do
      sum.add (← (← gate.a.mul gate.b).mul columnPower)) total.zero
    total.add (← (← entry aggregation.powers (← Count.add m 1)).mul inner)) first.zero

/-- The values of all wires, each of them with its weight. -/
def linearFold (aggregation : Aggregation) (wires : Wires) : Checked Residue :=
  Wire.all.foldlM (fun sum wire =>
    wires.gates.cells.foldlM (fun sum (cell, gate) => do
      let weight ← aggregation.weights.read cell
      sum.add (← (gate.on wire).mul (weight.on wire))) sum) aggregation.constant.zero

/-- The folded equation holds. -/
def check (aggregation : Aggregation) (wires : Wires) : Attempt CheckError Unit := do
  let gates ← aggregation.gateFold wires
  let linear ← aggregation.linearFold wires
  let sum ← gates.add linear
  if sum ≠ aggregation.constant then
    throw (.refused .aggregation)

end Aggregation

/-- All four relations in turn. -/
def BoundSystem.check (bound : BoundSystem) (wires : Wires) (commitment : Residue)
    (aggregation : Aggregation) : Attempt CheckError Unit := do
  wires.checkGates
  wires.checkCommitment commitment
  bound.checkConstraints wires
  aggregation.check wires

end CoinSpend
