/-!
# Refusals and faults

A call fails in one of two ways. It *refuses* an input that its caller is expected to be able to
hand it, with a reason that says what is wrong; or it meets a *fault*, when its caller broke a
contract for which no answer is defined: operands of two different fields, a cell outside its
grid, an index past the end of a table, a count that no longer fits in a word.

The faults are those of a build that checks its assertions and the arithmetic of its words. A build
that leaves these checks out still faults at cells, rows and entries that are not there; past an
assertion that fails it goes on, a count that does not fit is reduced to its word, and nothing is
said here about the values that are found after that.

`Checked` is a computation that can only fault, `Attempt` one that can also refuse.
-/

namespace CoinSpend

/-- The residue operations that need both operands in one field. -/
inductive FieldOp where
  | add
  | sub
  | mul
  deriving DecidableEq

/-- The operations on counts whose result may leave the range of a word. -/
inductive CountOp where
  | add
  | sub
  | mul
  deriving DecidableEq

/-- A broken contract. -/
inductive Fault where
  /-- The operands carry two different moduli. -/
  | mixedModuli (op : FieldOp)
  /-- A count does not fit in its word. -/
  | overflow (op : CountOp)
  /-- A wire is looked for in a grid without columns. -/
  | divisionByZero
  /-- The cell at `row` and `col` is read or written in a smaller grid. -/
  | outsideGrid (row col rows columns : Nat)
  /-- A whole row is read below the last one. -/
  | missingRow (row : Nat)
  /-- A table of `length` entries is read at `index`. -/
  | pastEnd (length index : Nat)
  /-- The first `count` entries of a table of only `length` entries are read. -/
  | shortTable (length count : Nat)
  /-- There are not as many constraints as there should be. -/
  | constraintCount (made expected : Nat)
  /-- There are too few powers of the challenge to give every column one. -/
  | shortPowerTable
  /-- A bit wire is asked for that is not among the bits of the randomness. -/
  | missingBit
  /-- An accumulation wire is asked for after the last step. -/
  | missingStep
  deriving DecidableEq

namespace Fault

/-- What is said about a broken contract. -/
def message : Fault → String
  | mixedModuli .add => "mixed moduli in add"
  | mixedModuli .sub => "mixed moduli in sub"
  | mixedModuli .mul => "mixed moduli in mul"
  | overflow .add => "attempt to add with overflow"
  | overflow .sub => "attempt to subtract with overflow"
  | overflow .mul => "attempt to multiply with overflow"
  | divisionByZero => "attempt to divide by zero"
  | outsideGrid row col rows columns =>
      "cell (" ++ toString row ++ ", " ++ toString col ++ ") outside " ++ toString rows ++ "x"
        ++ toString columns ++ " matrix"
  | missingRow row => "row " ++ toString row ++ " out of range"
  | pastEnd length index =>
      "index out of bounds: the len is " ++ toString length ++ " but the index is "
        ++ toString index
  | shortTable length count =>
      "range end index " ++ toString count ++ " out of range for slice of length "
        ++ toString length
  | constraintCount made expected =>
      "assertion `left == right` failed\n  left: " ++ toString made ++ "\n right: "
        ++ toString expected
  | shortPowerTable => "power table too short for YDash"
  | missingBit => "assertion failed: k < self.serial_size"
  | missingStep => "assertion failed: k + 1 < self.serial_size"

end Fault

/-- A computation that answers unless a contract is broken. -/
abbrev Checked := Except Fault

/-- Why an attempt did not answer: it refused its input, or a contract was broken. -/
inductive Failure (ε : Type) where
  | refused (reason : ε)
  | fault (breach : Fault)
  deriving DecidableEq

/-- A computation that answers, refuses its input for a reason in `ε`, or faults. -/
abbrev Attempt (ε : Type) := Except (Failure ε)

instance {ε : Type} : MonadLift Checked (Attempt ε) where
  monadLift x := x.mapError .fault

namespace Attempt

variable {ε δ α : Type}

/-- The attempt that refuses for `reason`. -/
def refuse (reason : ε) : Attempt ε α :=
  .error (.refused reason)

/-- Restates the reason of a refusal; answers and faults stay as they are. -/
def restate (f : ε → δ) (x : Attempt ε α) : Attempt δ α :=
  x.mapError fun
    | .refused reason => .refused (f reason)
    | .fault breach => .fault breach

end Attempt

/-- The entry of a table at `index`. -/
def entry {α : Type} (table : Array α) (index : Nat) : Checked α :=
  match table[index]? with
  | some value => .ok value
  | none => .error (.pastEnd table.size index)

/-- The first `count` entries of a table that has to have as many. -/
def leading {α : Type} (table : Array α) (count : Nat) : Checked (List α) :=
  if count ≤ table.size then .ok (table.toList.take count)
  else .error (.shortTable table.size count)

theorem leading_eq_ok {α : Type} {table : Array α} {count : Nat} (long : count ≤ table.size) :
    leading table count = .ok (table.toList.take count) :=
  if_pos long

end CoinSpend
