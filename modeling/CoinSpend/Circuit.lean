import CoinSpend.Check

/-!
# The circuit of a spend

A circuit puts together the constraints of a parameter set, bound to the serial number of a
witness, the wires assigned for the witness, and the commitment that they have to open. A spend is
checked by making the circuit of its witness and checking that with its challenge.
-/

namespace CoinSpend

/-- Why no circuit is made for a witness. -/
inductive CircuitError where
  | parameterMismatch
  | wires (error : WiresError)
  deriving DecidableEq

namespace CircuitError

/-- What is said about a witness that no circuit is made for. -/
def message : CircuitError → String
  | parameterMismatch => "constraint system was built for a different parameter set"
  | wires error => error.message

end CircuitError

/-- Why a spend is rejected. -/
inductive SpendError where
  | circuit (error : CircuitError)
  | challenge (error : ChallengeError)
  | check (error : CheckError)
  deriving DecidableEq

namespace SpendError

/-- What is said about a rejected spend. -/
def message : SpendError → String
  | circuit error => error.message
  | challenge error => error.message
  | check error => error.message

end SpendError

/-- The constraints, the wires and the commitment of a spend. -/
structure Circuit where
  parameters : Parameters
  bound : BoundSystem
  wires : Wires
  serial : Residue
  commitment : Residue

namespace Circuit

/-- The circuit for a witness. Refuses a system of other parameters before it assigns the
    wires. -/
def ofWitness (p : Parameters) (system : LinearSystem) (w : Witness) :
    Attempt CircuitError Circuit := do
  if ¬system.Matches p then
    throw (.refused .parameterMismatch)
  let wires ← (Wires.assign w p).restate .wires
  let commitment ← p.commit w.serial w.randomness
  return ⟨p, system.bind w.serial, wires, w.serial, commitment⟩

/-- Folds the relations of the circuit by a challenge. -/
def aggregate (circuit : Circuit) (y : Residue) : Attempt ChallengeError Aggregation := do
  if ¬circuit.parameters.field.Contains y then
    throw (.refused .foreign)
  Aggregation.ofChallenge y circuit.bound circuit.parameters.shape.pads.toNat

/-- Checks the wires of the circuit against its constraints, its commitment and an
    aggregation. -/
def check (circuit : Circuit) (aggregation : Aggregation) : Attempt CheckError Unit :=
  circuit.bound.check circuit.wires circuit.commitment aggregation

/-- Checks the circuit with the aggregation of a challenge. -/
def verify (circuit : Circuit) (y : Residue) : Attempt SpendError Unit := do
  let aggregation ← (circuit.aggregate y).restate .challenge
  (circuit.check aggregation).restate .check

end Circuit

/-! ## Spends -/

/-- A witness and the challenge that it is checked with. -/
structure Spend where
  witness : Witness
  challenge : Residue

namespace Spend

/-- Checks one spend. -/
def check (p : Parameters) (system : LinearSystem) (spend : Spend) : Attempt SpendError Unit := do
  let circuit ← (Circuit.ofWitness p system spend.witness).restate .circuit
  circuit.verify spend.challenge

/-- Checks spends of one parameter set; the verdicts come in the order of the spends. -/
def checkAll (p : Parameters) (system : LinearSystem) (spends : List Spend) :
    List (Attempt SpendError Unit) :=
  spends.map (check p system)

end Spend

end CoinSpend
