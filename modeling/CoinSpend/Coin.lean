import CoinSpend.Parameters.Codec
import CoinSpend.PrimeField.Sampling

/-!
# Coins

A coin is secret: a serial number and a randomness that is short enough for the circuit. What is
published of it is the value of its commitment, without the field it was made in: it is given one
again by the parameters it is used with.

A spend is checked for what its witness claims: a serial number, a randomness, and the bits that
the randomness is said to have. Nothing in a witness says that the bits are the right ones.
-/

namespace CoinSpend

/-! ## Witnesses -/

/-- A serial number, a randomness, and the claimed bits of it from the lowest one on. -/
structure Witness where
  serial : Residue
  randomness : Residue
  bit : Nat → Bool

namespace Witness

/-- The witness that claims the true bits. -/
def ofOpening (serial randomness : Residue) : Witness :=
  ⟨serial, randomness, randomness.bit⟩

/-- The witness that claims the other value for one bit. -/
def flip (w : Witness) (index : Nat) : Witness :=
  { w with bit := fun i => if i = index then !w.bit i else w.bit i }

/-- The lowest `count` claimed bits. -/
def bits (w : Witness) (count : Nat) : List Bool :=
  (List.range count).map w.bit

end Witness

/-! ## Coins -/

/-- Why a coin or a published value is rejected. -/
inductive CoinError where
  | foreign
  | tooWide (bits serialSize : Nat)
  deriving DecidableEq

namespace CoinError

/-- What is said about a rejected coin. -/
def message : CoinError → String
  | foreign => "value does not belong to the parameter set's field"
  | tooWide bits serialSize =>
      "randomness has " ++ toString bits ++ " bits but the parameter set allows "
        ++ toString serialSize

end CoinError

/-- A serial number and a randomness. -/
structure Coin where
  serial : Residue
  randomness : Residue
  deriving DecidableEq

namespace Coin

/-- The coin of two residues of the field, the second of them short enough. -/
def ofResidues (p : Parameters) (serial randomness : Residue) : Except CoinError Coin :=
  if ¬(p.field.Contains serial ∧ p.field.Contains randomness) then .error .foreign
  else
    let bits := bitLength randomness.value
    if p.serialSize < bits then .error (.tooWide bits p.serialSize)
    else .ok ⟨serial, randomness⟩

/-- A fresh coin: a random serial number, and then as many random bits as a randomness may
    have. -/
def mint (p : Parameters) (stream : ByteStream) : Coin × ByteStream :=
  let (serial, stream) := p.field.sample stream
  let (raw, stream) := randomNumber p.serialSize stream
  (⟨serial, p.field.residue raw⟩, stream)

/-- The witness of a spend of this coin. -/
def toWitness (coin : Coin) : Witness :=
  .ofOpening coin.serial coin.randomness

end Coin

/-! ## Published coins -/

/-- The value of a commitment. -/
structure Commitment where
  value : Nat
  deriving DecidableEq

/-- What is published of a coin. -/
def Coin.publish (coin : Coin) (p : Parameters) : Checked Commitment := do
  let commitment ← p.commit coin.serial coin.randomness
  return ⟨commitment.value⟩

namespace Commitment

/-- The value as a residue, if it is below the modulus. -/
def residueIn (c : Commitment) (p : Parameters) : Except CoinError Residue :=
  if p.field.modulus ≤ c.value then .error .foreign else .ok (p.field.residue c.value)

/-- Whether the commitment to the witness has this value. -/
def isOpenedBy (c : Commitment) (p : Parameters) (w : Witness) : Checked Bool := do
  let expected ← p.commit w.serial w.randomness
  return expected.value == c.value

/-- The bytes of a published coin: those of its value. -/
def encode (c : Commitment) : List UInt8 :=
  encodeNumber c.value

/-- The published coin at the start of the bytes. -/
def decode (bytes : List UInt8) : Attempt DecodeError Commitment :=
  match takeNumber bytes with
  | none => .refuse .unexpectedEnd
  | some (value, _) => .ok ⟨value⟩

end Commitment

end CoinSpend
