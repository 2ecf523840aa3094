import CoinSpend.Fault
import CoinSpend.Number.Digits

/-!
# A strong probable prime test

A number passes if it is one of the first twelve primes, or has none of them as a divisor and is
a strong probable prime to each of them as a base. With `n - 1 = 2 ^ twos * odd`, the base `a` is
passed if `a ^ odd` is `1` or one of its first `twos` repeated squares is `n - 1`, modulo `n`.

The factors of two are counted in half a word. A number without small divisors for which there are
too many of them to be counted there, which has half a gigabyte of digits, is a fault of the test.
-/

namespace CoinSpend

/-- The twelve smallest primes: they are divided by first, and then serve as bases. -/
def smallPrimes : List Nat := [2, 3, 5, 7, 11, 13, 17, 19, 23, 29, 31, 37]

/-- What division by the given primes says about `n`: `n` is one of them, or has one of them as
    a divisor, or neither. -/
def trialDivision (n : Nat) : List Nat → Option Bool
  | [] => none
  | p :: rest =>
      if n = p then some true
      else if n % p = 0 then some false
      else trialDivision n rest

/-- The first number of factors of two that does not fit in half a word. -/
def twosLimit : Nat := UInt32.size

/-- Takes at most `limit` factors of two out of `n`, after `twos` of them: how many there were, and
    what is left. -/
def splitTwos : Nat → Nat → Nat → Checked (Nat × Nat)
  | 0, twos, n => .ok (twos, n)
  | limit + 1, twos, n =>
      if n % 2 = 0 then
        if twos + 1 < twosLimit then splitTwos limit (twos + 1) (n / 2)
        else .error (.overflow .add)
      else .ok (twos, n)

/-- Whether one of the first `count` repeated squares of `x` is `n - 1` modulo `n`. -/
def squaresReach (n : Nat) : Nat → Nat → Bool
  | 0, _ => false
  | count + 1, x =>
      let y := x * x % n
      y == n - 1 || squaresReach n count y

/-- Whether `n` is a strong probable prime to `base`, where `n - 1 = 2 ^ twos * odd`. -/
def passesBase (n twos odd base : Nat) : Bool :=
  let x := powMod base odd n
  x == 1 || x == n - 1 || squaresReach n (twos - 1) x

/-- Trial division by the small primes, then the strong test to each of them as a base. -/
def isProbablePrime (n : Nat) : Checked Bool :=
  if n < 2 then .ok false
  else
    match trialDivision n smallPrimes with
    | some verdict => .ok verdict
    | none => do
        let (twos, odd) ← splitTwos (bitLength (n - 1)) 0 (n - 1)
        return smallPrimes.all (passesBase n twos odd)

end CoinSpend
