import CoinSpend.Coin
import CoinSpend.Layout

/-!
# The wires of a spend

Every cell of a circuit is a multiplication gate: the values on its wires `a` and `b` are
multiplied, and the product is the value on `c`.

The gate of bit `i` holds the bit, one less than the bit, and their product, which is zero exactly
for the bits zero and one. The gate of step `k` holds the product of the powers selected by the
bits `0` to `k`, the power selected by bit `k + 1`, and the product of the two. In the last step
the first factor is also multiplied by the power of the serial number, so that the last product is
the commitment that the claimed bits open.
-/

namespace CoinSpend

/-! ## The three wires of a gate -/

/-- The two factors and the product of a gate. -/
inductive Wire where
  | a
  | b
  | c
  deriving DecidableEq

/-- All wires of a gate in order. -/
def Wire.all : List Wire := [.a, .b, .c]

/-- One thing for each wire of a gate. -/
structure Triple (α : Type) where
  a : α
  b : α
  c : α
  deriving DecidableEq

namespace Triple

variable {α : Type}

/-- One thing for each wire, given by a function. -/
def ofFn (f : Wire → α) : Triple α :=
  ⟨f .a, f .b, f .c⟩

/-- What the triple holds for a wire. -/
def on (t : Triple α) : Wire → α
  | .a => t.a
  | .b => t.b
  | .c => t.c

/-- Replaces what the triple holds for a wire. -/
def set (t : Triple α) (wire : Wire) (value : α) : Triple α :=
  match wire with
  | .a => { t with a := value }
  | .b => { t with b := value }
  | .c => { t with c := value }

end Triple

/-! ## The wires of a layout -/

/-- Why no wires are assigned for a witness. -/
inductive WiresError where
  | layout (error : LayoutError)
  | tooWide (bits serialSize : Nat)
  deriving DecidableEq

namespace WiresError

/-- What is said about a witness that no wires are assigned for. -/
def message : WiresError → String
  | layout error => error.message
  | tooWide bits serialSize =>
      "randomness has " ++ toString bits ++ " bits but the circuit decomposes "
        ++ toString serialSize

end WiresError

/-- A residue for every wire of every gate of a layout. -/
structure Wires where
  layout : Layout
  gates : Grid layout.rows layout.columns (Triple Residue)

namespace Wires

/-- The power for a set bit and one for a clear one. -/
def selector (bit : Bool) (power : Residue) : Residue :=
  if bit then power else power.one

/-- The gate of a bit. -/
def bitGate (field : PrimeField) (bit : Bool) : Checked (Triple Residue) := do
  let value := if bit then field.one else field.zero
  return ⟨value, ← value.sub field.one, field.zero⟩

/-- The gates of the bits from the lowest one on. -/
def bitGates (field : PrimeField) (bits : List Bool) : Checked (List (Triple Residue)) :=
  bits.mapM (bitGate field)

/-- The gates of `steps` steps from number `k` on, which multiply `product` by the selectors one
    after the other. The gate of the last step has the power of the serial number as another
    factor. -/
def stepGates (layout : Layout) (serialPower : Residue) (selectors : Array Residue) :
    Nat → Nat → Residue → Checked (List (Triple Residue))
  | 0, _, _ => .ok []
  | steps + 1, k, product => do
      let product ← product.mul (← entry selectors k)
      let following ← Count.add k 1
      let next ← entry selectors following
      let left ← if k = (← layout.findLastStep) then product.mul serialPower else pure product
      let gate := ⟨left, next, ← left.mul next⟩
      return gate :: (← stepGates layout serialPower selectors steps following product)

/-- The wires for a witness. Refuses shapes that do not hold the circuit, and then randomness that
    has too many bits, whatever bits the witness claims. How many wires are in use is counted for a
    report. -/
def assign (w : Witness) (p : Parameters) : Attempt WiresError Wires := do
  let layout ← (Layout.ofShape p.shape).restate .layout
  let width := bitLength w.randomness.value
  if layout.serialSize < width then
    throw (.refused (.tooWide width layout.serialSize))
  let bits := w.bits layout.serialSize
  let zero := p.field.zero
  let blank ← layout.filled (⟨zero, zero, zero⟩ : Triple Residue)
  let bitGates ← bitGates p.field bits
  let serialPower := p.g.pow w.serial.value
  let selectors := List.zipWith selector bits (p.h.squares layout.serialSize)
  let steps ← Count.sub layout.serialSize 1
  let stepGates ← stepGates layout serialPower selectors.toArray steps 0 p.field.one
  let gates ← blank.putAll layout.bitCell 0 bitGates
  let gates ← gates.putAll layout.stepCell 0 stepGates
  let _ ← layout.countUsed
  return ⟨layout, gates⟩

/-- The values on one wire of all gates. -/
def on (wires : Wires) (wire : Wire) : Grid wires.layout.rows wires.layout.columns Residue :=
  wires.gates.map fun gate => gate.on wire

/-- The value on a wire of a gate, if there is one. -/
def value? (wires : Wires) (wire : Wire) (cell : Cell) : Option Residue :=
  (wires.gates.get? cell).map fun gate => gate.on wire

/-- The value on a wire of a gate that has to be there. -/
def read (wires : Wires) (wire : Wire) (cell : Cell) : Checked Residue := do
  return (← wires.gates.read cell).on wire

/-- Overwrites the value on a wire of a gate, or refuses to. The new value is not checked. -/
def set (wires : Wires) (wire : Wire) (cell : Cell) (value : Residue) :
    Except OutOfBounds Wires :=
  match wires.gates.modify? cell fun gate => gate.set wire value with
  | some (_, gates) => .ok { wires with gates }
  | none => .error ⟨cell, wires.layout.rows, wires.layout.columns⟩

/-- The product of the last step. -/
def final (wires : Wires) : Checked Residue := do
  wires.read .c (← wires.layout.findLastCell)

end Wires

end CoinSpend
