import CoinSpend.Count
import CoinSpend.PrimeField

/-!
# Parameters

All coins and spends of one deployment share a field, two generators `g` and `h` of it, and the
shape of the circuit that a spend is checked with. A coin with a serial number `s` and a
randomness `r` is committed to by `g ^ s * h ^ r`.
-/

namespace CoinSpend

/-- The size of a circuit: how many columns and rows of wires there are, how many bits the
    randomness of a coin may have, and how many columns of padding a proof adds. -/
structure Shape where
  columns : UInt64
  rows : UInt64
  serialSize : UInt64
  pads : UInt64
  deriving DecidableEq

namespace Shape

/-- The number of cells, if it is a count. -/
def capacity? (shape : Shape) : Option Nat :=
  Count.mul? shape.columns.toNat shape.rows.toNat

/-- Whether there is at least one cell and one bit, and the cells can be counted. -/
def Usable (shape : Shape) : Prop :=
  shape.columns ≠ 0 ∧ shape.rows ≠ 0 ∧ shape.serialSize ≠ 0 ∧ shape.capacity?.isSome

instance (shape : Shape) : Decidable shape.Usable :=
  inferInstanceAs (Decidable (_ ∧ _ ∧ _ ∧ _))

end Shape

/-- The two generators by name. -/
inductive Generator where
  | g
  | h
  deriving DecidableEq

/-- Why parameters are rejected. -/
inductive ParametersError where
  | field (error : FieldError)
  | badGenerator (generator : Generator)
  | badShape (shape : Shape)
  deriving DecidableEq

namespace ParametersError

/-- What is said about rejected parameters. -/
def message : ParametersError → String
  | field error => error.message
  | badGenerator .g => "generator g must lie in [2, q)"
  | badGenerator .h => "generator h must lie in [2, q)"
  | badShape shape =>
      "invalid circuit dimensions (columns " ++ toString shape.columns.toNat ++ ", rows "
        ++ toString shape.rows.toNat ++ ", serial size " ++ toString shape.serialSize.toNat
        ++ ")"

end ParametersError

/-- A residue of the field that is neither zero nor one. -/
def PrimeField.IsGenerator (field : PrimeField) (x : Residue) : Prop :=
  field.Contains x ∧ 2 ≤ x.value

/-- A field, two generators and a usable shape. -/
structure Parameters where
  field : PrimeField
  g : Residue
  h : Residue
  shape : Shape
  isGenerator_g : field.IsGenerator g
  isGenerator_h : field.IsGenerator h
  usable_shape : shape.Usable
  deriving DecidableEq

namespace Parameters

/-- The residue of a number that is at least two and below the modulus. -/
def generator (field : PrimeField) (name : Generator) (n : Nat) :
    Attempt ParametersError { x : Residue // field.IsGenerator x } :=
  if range : 2 ≤ n ∧ n < field.modulus then
    .ok ⟨field.residue n, rfl, by
      simpa [PrimeField.residue, Nat.mod_eq_of_lt range.2] using range.1⟩
  else .refuse (.badGenerator name)

/-- Checks the field, then `g`, then `h`, then the shape. -/
def ofNumbers (modulus g h : Nat) (shape : Shape) : Attempt ParametersError Parameters := do
  let field ← (PrimeField.ofModulus modulus).restate .field
  let g ← generator field .g g
  let h ← generator field .h h
  if usable : shape.Usable then
    return ⟨field, g, h, shape, g.property, h.property, usable⟩
  else throw (.refused (.badShape shape))

/-- Parameters to show the library with. -/
def demo : Attempt ParametersError Parameters :=
  ofNumbers (Nat.pow 2 255 - 19) 2 3 ⟨34, 16, 256, 2⟩

/-- The number of bits that the randomness of a coin may have. -/
def serialSize (p : Parameters) : Nat :=
  p.shape.serialSize.toNat

/-- The commitment to a serial number and a randomness: `g` to the power of the first times `h`
    to the power of the second. -/
def commit (p : Parameters) (serial randomness : Residue) : Checked Residue :=
  p.g.jointPower serial.value p.h randomness.value

end Parameters

end CoinSpend
