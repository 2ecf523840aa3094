import CoinSpend.Parameters

/-!
# The byte form of parameters

A word is eight little-endian bytes. A number of any size is a word that counts its digits to
base `2 ^ 32`, followed by the digits, each of four little-endian bytes and the least significant
first. A written number has no leading zero digit; a read one may have some, and they do not
count. A reader answers with what it read and the bytes that follow, and with nothing if the
bytes end too early.

Of parameters the modulus and the two generators are written as numbers, then the columns, the
rows, the serial size and the pads as words. What is read is checked again; bytes after the last
word are ignored.
-/

namespace CoinSpend

/-! ## Words and numbers -/

/-- The first `count` bytes and those after them. -/
def takeBytes (count : Nat) (bytes : List UInt8) : Option (List UInt8 × List UInt8) :=
  if bytes.length < count then none else some (bytes.splitAt count)

/-- The bytes of a word. -/
def encodeWord (word : UInt64) : List UInt8 :=
  toLittleEndian 8 word.toNat

/-- Reads a word. -/
def takeWord (bytes : List UInt8) : Option (UInt64 × List UInt8) := do
  let (word, rest) ← takeBytes 8 bytes
  return (UInt64.ofNat (littleEndian word), rest)

/-- The number of digits of `n` to base `2 ^ 32`; zero has none. -/
def digitCount (n : Nat) : Nat :=
  (bitLength n + 31) / 32

/-- The bytes of a number. -/
def encodeNumber (n : Nat) : List UInt8 :=
  encodeWord (UInt64.ofNat (digitCount n)) ++ toLittleEndian (4 * digitCount n) n

/-- Reads a number. -/
def takeNumber (bytes : List UInt8) : Option (Nat × List UInt8) := do
  let (digits, rest) ← takeWord bytes
  let (number, rest) ← takeBytes (4 * digits.toNat) rest
  return (littleEndian number, rest)

/-! ## Parameters -/

/-- Why bytes are not decoded. -/
inductive DecodeError where
  | unexpectedEnd
  | rejected (error : ParametersError)
  deriving DecidableEq

namespace DecodeError

/-- What is said about bytes that are not decoded. -/
def message : DecodeError → String
  | unexpectedEnd => "encoding error: io error: unexpected end of file"
  | rejected error => "encoding error: " ++ error.message

end DecodeError

/-- The bytes of a shape. -/
def Shape.encode (shape : Shape) : List UInt8 :=
  encodeWord shape.columns ++ encodeWord shape.rows ++ encodeWord shape.serialSize
    ++ encodeWord shape.pads

/-- Reads a shape. -/
def takeShape (bytes : List UInt8) : Option (Shape × List UInt8) := do
  let (columns, bytes) ← takeWord bytes
  let (rows, bytes) ← takeWord bytes
  let (serialSize, bytes) ← takeWord bytes
  let (pads, bytes) ← takeWord bytes
  return (⟨columns, rows, serialSize, pads⟩, bytes)

namespace Parameters

/-- The bytes of parameters. -/
def encode (p : Parameters) : List UInt8 :=
  encodeNumber p.field.modulus ++ encodeNumber p.g.value ++ encodeNumber p.h.value
    ++ p.shape.encode

/-- The modulus, the generators and the shape, not yet checked. -/
def takeNumbers (bytes : List UInt8) : Option ((Nat × Nat × Nat × Shape) × List UInt8) := do
  let (modulus, bytes) ← takeNumber bytes
  let (g, bytes) ← takeNumber bytes
  let (h, bytes) ← takeNumber bytes
  let (shape, bytes) ← takeShape bytes
  return ((modulus, g, h, shape), bytes)

/-- The parameters at the start of the bytes, if they are valid. -/
def decode (bytes : List UInt8) : Attempt DecodeError Parameters :=
  match takeNumbers bytes with
  | none => .refuse .unexpectedEnd
  | some ((modulus, g, h, shape), _) => (ofNumbers modulus g h shape).restate .rejected

end Parameters

end CoinSpend
