import CoinSpend.Number.Primality
import CoinSpend.Residue

/-!
# Fields with a modulus chosen at run time

A field is a modulus that passed the primality test. The test can let a composite number of a
special form through; every operation is still defined for such a modulus.
-/

namespace CoinSpend

/-- Why a number is not taken as a field's modulus. -/
inductive FieldError where
  | tooSmall
  | notPrime (modulus : Nat)
  deriving DecidableEq

namespace FieldError

/-- What is said about a rejected modulus. -/
def message : FieldError → String
  | tooSmall => "field modulus must be at least 2"
  | notPrime modulus => "field modulus " ++ decimal modulus ++ " is not prime"

end FieldError

/-- A modulus that is at least two and passed the primality test. -/
structure PrimeField where
  modulus : Nat
  two_le_modulus : 2 ≤ modulus
  isProbablePrime_modulus : isProbablePrime modulus = .ok true
  deriving DecidableEq

namespace PrimeField

/-- The field of the given modulus. -/
def ofModulus (modulus : Nat) : Attempt FieldError PrimeField :=
  if small : modulus < 2 then .refuse .tooSmall
  else
    match passed : isProbablePrime modulus with
    | .ok true => .ok ⟨modulus, Nat.le_of_not_lt small, passed⟩
    | .ok false => .refuse (.notPrime modulus)
    | .error breach => .error (.fault breach)

theorem ofModulus_eq_ok_iff {n : Nat} {field : PrimeField} :
    ofModulus n = .ok field ↔ field.modulus = n := by
  constructor
  · intro made
    unfold ofModulus at made
    split at made
    case isTrue => cases made
    case isFalse =>
      split at made
      next => cases made; rfl
      next => cases made
      next => cases made
  · rintro rfl
    have large := field.two_le_modulus
    have passed := field.isProbablePrime_modulus
    unfold ofModulus
    split
    case isTrue small => omega
    case isFalse =>
      split
      next => rfl
      next failed => cases failed.symm.trans passed
      next failed => cases failed.symm.trans passed

/-- The class of `n`. -/
def residue (field : PrimeField) (n : Nat) : Residue :=
  ⟨field.modulus, n % field.modulus,
    Nat.mod_lt _ (Nat.lt_of_lt_of_le Nat.two_pos field.two_le_modulus)⟩

/-- The class of an integer: that of its magnitude, or the opposite of it. -/
def ofInt (field : PrimeField) (z : Int) : Residue :=
  let magnitude := field.residue z.natAbs
  if z < 0 then magnitude.neg else magnitude

/-- The class of zero. -/
def zero (field : PrimeField) : Residue :=
  field.residue 0

/-- The class of one. -/
def one (field : PrimeField) : Residue :=
  field.residue 1

/-- Whether the residue is one of this field. -/
def Contains (field : PrimeField) (x : Residue) : Prop :=
  x.modulus = field.modulus

instance (field : PrimeField) (x : Residue) : Decidable (field.Contains x) :=
  inferInstanceAs (Decidable (x.modulus = field.modulus))

theorem contains_residue (field : PrimeField) (n : Nat) : field.Contains (field.residue n) :=
  rfl

end PrimeField

end CoinSpend
