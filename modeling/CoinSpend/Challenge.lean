import CoinSpend.Constraint

/-!
# Aggregated relations

All relations of a circuit are folded into a single equation by a challenge `y`, which weights
every relation with a power of its own. The gate in row `m` and column `col` is weighted by
`y ^ (m + 1 + rows * (col + 1))`, and the checked constraint `i` by `y ^ (offset + i)`, where
`offset` lies beyond the exponents of the gates. Collecting what every wire is multiplied by gives
a grid of weights; the products of the gates enter it with the opposite sign.

The powers are tabled from the zeroth on; column `col` is weighted by `y ^ (rows * (col + 1))`, and
the negative powers are the inverses of those weights, continued over the columns of padding.
-/

namespace CoinSpend

/-! ## Powers of a challenge -/

/-- Why a challenge is rejected. -/
inductive ChallengeError where
  | foreign
  | degenerate
  deriving DecidableEq

namespace ChallengeError

/-- What is said about a rejected challenge. -/
def message : ChallengeError → String
  | foreign => "challenge is not an element of the parameter set's field"
  | degenerate => "challenge must be nonzero"

end ChallengeError

namespace Residue

/-- `count` residues, each of them the one before times `ratio`. -/
def geometric (ratio : Residue) : Nat → Residue → Checked (List Residue)
  | 0, _ => .ok []
  | count + 1, current => do
      let next ← current.mul ratio
      return current :: (← geometric ratio count next)

/-- The first `count` powers of `y`. -/
def powers (y : Residue) (count : Nat) : Checked (List Residue) :=
  geometric y count y.one

/-- `y ^ (-rows * (k + 1))` for the first `count` numbers `k`; zero has none. -/
def negativePowers (y : Residue) (rows count : Nat) : Attempt ChallengeError (List Residue) :=
  match y.inverse? with
  | none => .error (.refused .degenerate)
  | some inverse =>
      let step := inverse.pow rows
      liftM (geometric step count step)

end Residue

/-- The weights of the columns, read from a table of powers that has to reach beyond them. -/
def columnPowersOf (powers : Array Residue) (rows columns : Nat) : Checked (List Residue) := do
  let needed ← Count.mul rows columns
  if powers.size ≤ needed then throw .shortPowerTable
  (List.range columns).mapM fun col => do
    entry powers (← Count.mul rows (← Count.add col 1))

/-! ## Weights -/

/-- The weights of all wires and the constant they add up to, with the powers they are made
    from. -/
structure Aggregation where
  layout : Layout
  challenge : Residue
  powers : Array Residue
  columnPowers : List Residue
  negativePowers : List Residue
  weights : Grid layout.rows layout.columns (Triple Residue)
  constant : Residue
  deriving DecidableEq

/-- Gives every product the opposite of the weight of its gate. -/
def weighGates {rows columns : Nat} (powers : Array Residue) (columnPowers : List Residue)
    (weights : Grid rows columns (Triple Residue)) :
    Checked (Grid rows columns (Triple Residue)) :=
  (List.range rows).foldlM (fun weights m =>
    columnPowers.zipIdx.foldlM (fun weights (columnPower, col) => do
      let weight ← (← entry powers (← Count.add m 1)).mul columnPower
      weights.update ⟨m, col⟩ fun triple => .ok (triple.set .c weight.neg)) weights) weights

namespace BoundSystem

/-- Adds the coefficients of the checked constraints, each constraint with its own power. -/
def weighConstraints {rows columns : Nat} (bound : BoundSystem) (powers : Array Residue)
    (offset : Nat) (weights : Grid rows columns (Triple Residue)) :
    Checked (Grid rows columns (Triple Residue)) := do
  (← bound.system.readChecked).zipIdx.foldlM (fun weights (constraint, i) => do
    let power ← entry powers (← Count.add offset i)
    constraint.terms.foldlM (fun weights term => do
      let change ← (← bound.coefficient term).mul power
      weights.update term.cell fun triple => do
        return triple.set term.wire (← (triple.on term.wire).add change)) weights) weights

/-- The weights of all wires. -/
def weights (bound : BoundSystem) (powers : Array Residue) (columnPowers : List Residue)
    (offset : Nat) :
    Checked (Grid bound.system.layout.rows bound.system.layout.columns (Triple Residue)) := do
  let zero := (← entry powers 0).zero
  let blank ← bound.system.layout.filled ⟨zero, zero, zero⟩
  bound.weighConstraints powers offset (← weighGates powers columnPowers blank)

end BoundSystem

/-- The sum of the constants, each of them with its own power. -/
def weightedConstant (constants : List Residue) (powers : Array Residue) (offset : Nat) :
    Checked Residue := do
  let zero := (← entry powers 0).zero
  constants.zipIdx.foldlM (fun sum (constant, i) => do
    sum.add (← constant.mul (← entry powers (← Count.add offset i)))) zero

namespace Aggregation

/-- Folds the relations of a bound system by the challenge, for a proof with `pads` columns of
    padding. -/
def ofChallenge (y : Residue) (bound : BoundSystem) (pads : Nat) :
    Attempt ChallengeError Aggregation := do
  if ¬y.SameField bound.serialPower then
    throw (.refused .foreign)
  let layout := bound.system.layout
  let linearOffset ← layout.findLinearOffset
  let powerCount ← layout.countPowers
  let negativeCount ← Count.add layout.columns pads
  let negativePowers ← y.negativePowers layout.rows negativeCount
  let powers := (← y.powers powerCount).toArray
  let columnPowers ← columnPowersOf powers layout.rows layout.columns
  let weights ← bound.weights powers columnPowers linearOffset
  let constants := (← bound.system.readChecked).map fun constraint => constraint.constant
  let constant ← weightedConstant constants powers linearOffset
  return {
    layout, challenge := y, powers, columnPowers, negativePowers, weights, constant }

end Aggregation

end CoinSpend
