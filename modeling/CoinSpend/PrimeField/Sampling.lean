import CoinSpend.PrimeField

/-!
# Sampling from random bytes

Random numbers are made from an endless stream of bytes. A number of a given width keeps the
lowest bits of the bytes drawn for it; a residue is drawn with sixteen bytes more than its modulus
has, so that reducing it leaves every class almost equally likely.
-/

namespace CoinSpend

/-- An endless stream of bytes, of which the first `drawn` have been used. -/
structure ByteStream where
  byteAt : Nat → UInt8
  drawn : Nat

namespace ByteStream

/-- The next `count` bytes and the stream after them. -/
def draw (stream : ByteStream) (count : Nat) : List UInt8 × ByteStream :=
  ((List.range count).map fun i => stream.byteAt (stream.drawn + i),
    { stream with drawn := stream.drawn + count })

end ByteStream

/-- The number of bytes that hold `bits` bits. -/
def bytesFor (bits : Nat) : Nat :=
  (bits + 7) / 8

/-- Clears the `excess` most significant bits of the last byte. -/
def clearTop (excess : Nat) (bytes : List UInt8) : List UInt8 :=
  bytes.modify (bytes.length - 1) fun top => top &&& ((255 : UInt8) >>> UInt8.ofNat excess)

/-- The number that the lowest `bits` bits of the bytes stand for, given just enough bytes. -/
def numberOfBytes (bits : Nat) (bytes : List UInt8) : Nat :=
  littleEndian (clearTop (8 * bytes.length - bits) bytes)

/-- A random number below `2 ^ bits`. -/
def randomNumber (bits : Nat) (stream : ByteStream) : Nat × ByteStream :=
  let (bytes, later) := stream.draw (bytesFor bits)
  (numberOfBytes bits bytes, later)

namespace PrimeField

/-- How many bytes more than the modulus has are drawn for a residue. -/
def slackBytes : Nat := 16

/-- The number of bytes drawn for a residue. -/
def sampleWidth (field : PrimeField) : Nat :=
  bytesFor (bitLength field.modulus) + slackBytes

/-- The class of the number that the bytes stand for. -/
def residueOfBytes (field : PrimeField) (bytes : List UInt8) : Residue :=
  field.residue (littleEndian bytes)

/-- A random residue. -/
def sample (field : PrimeField) (stream : ByteStream) : Residue × ByteStream :=
  let (bytes, later) := stream.draw field.sampleWidth
  (field.residueOfBytes bytes, later)

/-- The first random residue that is not zero, among at most `attempts` of them. -/
def sampleNonzero (field : PrimeField) : Nat → ByteStream → Option (Residue × ByteStream)
  | 0, _ => none
  | attempts + 1, stream =>
      let (x, later) := field.sample stream
      if x.isZero then field.sampleNonzero attempts later else some (x, later)

end PrimeField

end CoinSpend
