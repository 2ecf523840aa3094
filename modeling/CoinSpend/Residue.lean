import CoinSpend.Fault
import CoinSpend.Number.Digits

/-!
# Residues

A residue carries its own modulus, which is known only at run time, and the representative below
that modulus. Two residues are equal when both parts agree. Adding, subtracting and multiplying
need one modulus on both sides and fault otherwise: that the moduli agree is an assertion, which is
made where assertions are checked. The operations on a single residue always answer, in the field
of their operand.

`jointPower g a h b` is `g ^ a * h ^ b`, found with one squaring for each binary digit of the
longer exponent: both exponents share the squarings, and a digit that is set in both of them is
taken care of by one multiplication with `g * h`.
-/

namespace CoinSpend

/-- The class of `value` modulo `modulus`. -/
structure Residue where
  modulus : Nat
  value : Nat
  value_lt : value < modulus
  deriving DecidableEq

namespace Residue

theorem modulus_pos (x : Residue) : 0 < x.modulus :=
  Nat.lt_of_le_of_lt (Nat.zero_le _) x.value_lt

/-- The class of `n` in the field of `x`. -/
def embed (x : Residue) (n : Nat) : Residue :=
  ⟨x.modulus, n % x.modulus, Nat.mod_lt _ x.modulus_pos⟩

/-- Zero in the field of `x`. -/
def zero (x : Residue) : Residue :=
  ⟨x.modulus, 0, x.modulus_pos⟩

/-- One in the field of `x`. -/
def one (x : Residue) : Residue :=
  x.embed 1

/-- Whether the two residues have one modulus. -/
def SameField (x y : Residue) : Prop :=
  x.modulus = y.modulus

instance (x y : Residue) : Decidable (x.SameField y) :=
  inferInstanceAs (Decidable (x.modulus = y.modulus))

/-- Whether the representative is zero. -/
def isZero (x : Residue) : Bool :=
  x.value == 0

/-- Whether the representative is one. -/
def isOne (x : Residue) : Bool :=
  x.value == 1

/-- The sum of two representatives is at most one modulus too large. -/
def addSame (x y : Residue) (same : x.SameField y) : Residue where
  modulus := x.modulus
  value :=
    if x.value + y.value < x.modulus then x.value + y.value
    else x.value + y.value - x.modulus
  value_lt := by
    have hx := x.value_lt
    have hy := y.value_lt
    have h : x.modulus = y.modulus := same
    split <;> omega

/-- The difference of two representatives is at most one modulus too small. -/
def subSame (x y : Residue) (same : x.SameField y) : Residue where
  modulus := x.modulus
  value :=
    if y.value ≤ x.value then x.value - y.value
    else x.value + x.modulus - y.value
  value_lt := by
    have hx := x.value_lt
    have hy := y.value_lt
    have h : x.modulus = y.modulus := same
    split <;> omega

/-- The sum of two residues of one field. -/
def add (x y : Residue) : Checked Residue :=
  if same : x.SameField y then .ok (x.addSame y same) else .error (.mixedModuli .add)

/-- The difference of two residues of one field. -/
def sub (x y : Residue) : Checked Residue :=
  if same : x.SameField y then .ok (x.subSame y same) else .error (.mixedModuli .sub)

/-- The product of two residues of one field. -/
def mul (x y : Residue) : Checked Residue :=
  if x.SameField y then .ok (x.embed (x.value * y.value)) else .error (.mixedModuli .mul)

/-- The opposite residue. -/
def neg (x : Residue) : Residue :=
  if h : x.value = 0 then x
  else ⟨x.modulus, x.modulus - x.value, by have := x.value_lt; omega⟩

/-- The product of a residue with itself. -/
def square (x : Residue) : Residue :=
  x.embed (x.value * x.value)

/-- `x`, its square, the square of that, and so on: `count` residues in all. -/
def squares (x : Residue) : Nat → List Residue
  | 0 => []
  | count + 1 => x :: x.square.squares count

/-- The power by a natural exponent. -/
def pow (x : Residue) (exponent : Nat) : Residue where
  modulus := x.modulus
  value := powMod x.value exponent x.modulus
  value_lt := powMod_lt x.modulus_pos x.value exponent

/-- The power by two less than the modulus: for a prime modulus, the inverse. Zero has none. -/
def inverse? (x : Residue) : Option Residue :=
  if x.isZero then none else some (x.pow (x.modulus - 2))

/-- The representative, if it fits in 64 bits. -/
def toWord? (x : Residue) : Option Nat :=
  if x.value < UInt64.size then some x.value else none

/-- The binary digit of the representative at `index`, the least significant one at zero. -/
def bit (x : Residue) (index : Nat) : Bool :=
  x.value.testBit index

end Residue

/-! ## A product of two powers -/

namespace Residue

/-- The product of the powers by the two exponents with the given bits, from the lowest ones on,
    where `gh` stands for `g * h`. -/
def jointPowerBits (g h gh : Residue) : List (Bool × Bool) → Checked Residue
  | [] => .ok g.one
  | (a, b) :: later => do
      let upper ← jointPowerBits g h gh later
      let squared := upper.square
      match a, b with
      | true, true => squared.mul gh
      | true, false => squared.mul g
      | false, true => squared.mul h
      | false, false => .ok squared

/-- The product of `g` to the power `a` and `h` to the power `b`, which have to be of one
    field. -/
def jointPower (g : Residue) (a : Nat) (h : Residue) (b : Nat) : Checked Residue := do
  let gh ← g.mul h
  let width := max (bitLength a) (bitLength b)
  jointPowerBits g h gh ((lowBits width a).zip (lowBits width b))

end Residue

end CoinSpend
