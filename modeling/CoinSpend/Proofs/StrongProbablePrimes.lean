import CoinSpend.PrimeField
import CoinSpend.Proofs.Attempts
import CoinSpend.Proofs.BinaryPowers
import Mathlib.FieldTheory.Finite.Basic
import Mathlib.Tactic.NormNum.Prime

/-!
# What the primality test lets through

The test rejects no prime. Beyond the primes it accepts just the composite numbers that none of
the small primes divides and that are strong probable primes to all of them. There are such numbers,
also below `33 * 10 ^ 23`. It gives no verdict on numbers without small divisors before which there
is a multiple of `2 ^ 2 ^ 32`.
-/

namespace CoinSpend

/-- With `n - 1 = 2 ^ twos * odd`, the power of `a` by `odd` is one, or one of its first `twos`
    repeated squares, itself included, is minus one. -/
def StrongProbablePrime (n a : ℕ) : Prop :=
  ∃ twos odd, n - 1 = 2 ^ twos * odd ∧ Odd odd ∧
    ((a : ZMod n) ^ odd = 1 ∨ ∃ r < twos, (a : ZMod n) ^ (2 ^ r * odd) = -1)

/-- A composite number that passes for a prime. -/
structure Undetected (n : ℕ) : Prop where
  two_le : 2 ≤ n
  not_prime : ¬n.Prime
  not_dvd : ∀ p ∈ smallPrimes, ¬p ∣ n
  strong : ∀ a ∈ smallPrimes, StrongProbablePrime n a

/-- A number without small divisors whose predecessor has more factors of two than half a word
    counts. -/
structure Uncounted (n : ℕ) : Prop where
  two_le : 2 ≤ n
  not_dvd : ∀ p ∈ smallPrimes, ¬p ∣ n
  dvd_pred : 2 ^ twosLimit ∣ n - 1

theorem prime_of_mem_smallPrimes : ∀ p ∈ smallPrimes, p.Prime := by
  decide

/-! ## Trial division -/

/-- What each answer of the trial division says about the number. -/
theorem trialDivision_cases (n : ℕ) (divisors : List ℕ) :
    (trialDivision n divisors = some true ∧ n ∈ divisors) ∨
      (trialDivision n divisors = some false ∧ ∃ p ∈ divisors, p ∣ n ∧ p ≠ n) ∨
      (trialDivision n divisors = none ∧ ∀ p ∈ divisors, ¬p ∣ n) := by
  induction divisors with
  | nil => simp [trialDivision]
  | cons p rest ih =>
    rw [trialDivision]
    by_cases equal : n = p
    · exact Or.inl ⟨if_pos equal, equal ▸ List.mem_cons_self⟩
    by_cases divides : n % p = 0
    · rw [if_neg equal, if_pos divides]
      exact Or.inr (Or.inl
        ⟨rfl, p, List.mem_cons_self, Nat.dvd_of_mod_eq_zero divides, Ne.symm equal⟩)
    rw [if_neg equal, if_neg divides]
    rcases ih with ⟨verdict, member⟩ | ⟨verdict, p', member, proper⟩ | ⟨verdict, none⟩
    · exact Or.inl ⟨verdict, List.mem_cons_of_mem p member⟩
    · exact Or.inr (Or.inl ⟨verdict, p', List.mem_cons_of_mem p member, proper⟩)
    · exact Or.inr (Or.inr
        ⟨verdict, List.forall_mem_cons.mpr ⟨mt Nat.mod_eq_zero_of_dvd divides, none⟩⟩)

/-! ## Factors of two -/

/-- Within enough steps all factors of two are taken out, unless they become too many to count. -/
theorem splitTwos_two_pow_mul {limit twos k odd : ℕ} (counted : twos < twosLimit)
    (isOdd : Odd odd) (enough : 2 ^ k * odd < 2 ^ limit) :
    splitTwos limit twos (2 ^ k * odd)
      = if twos + k < twosLimit then .ok (twos + k, odd) else .error (.overflow .add) := by
  have positive : 0 < 2 ^ k * odd := Nat.mul_pos (Nat.two_pow_pos k) isOdd.pos
  induction k generalizing limit twos with
  | zero =>
    cases limit with
    | zero => omega
    | succ limit =>
      have last : ¬odd % 2 = 0 := by
        rw [Nat.odd_iff.mp isOdd]
        decide
      rw [pow_zero, one_mul, splitTwos, if_neg last, Nat.add_zero, if_pos counted]
  | succ k ih =>
    cases limit with
    | zero => omega
    | succ limit =>
      have half : 2 ^ (k + 1) * odd = 2 * (2 ^ k * odd) := by rw [pow_succ', mul_assoc]
      rw [half] at positive enough ⊢
      rw [pow_succ'] at enough
      rw [splitTwos, if_pos (Nat.mul_mod_right 2 _), Nat.mul_div_cancel_left _ Nat.two_pos]
      by_cases more : twos + 1 < twosLimit
      · rw [if_pos more, ih more (by omega) (by omega), Nat.add_right_comm, Nat.add_assoc]
      · rw [if_neg more, if_neg (by omega)]

theorem factorization_two_pow_mul_odd (twos : ℕ) {odd : ℕ} (isOdd : Odd odd) :
    (2 ^ twos * odd).factorization 2 = twos := by
  have rest : odd.factorization 2 = 0 :=
    Nat.factorization_eq_zero_of_not_dvd (Odd.not_two_dvd_nat isOdd)
  rw [Nat.factorization_mul (by positivity) isOdd.pos.ne', Finsupp.add_apply, rest,
    Nat.prime_two.factorization_pow, Finsupp.single_eq_same, add_zero]

theorem two_pow_mul_odd_inj {twos twos' odd odd' : ℕ} (isOdd : Odd odd) (isOdd' : Odd odd')
    (same : 2 ^ twos * odd = 2 ^ twos' * odd') : twos = twos' ∧ odd = odd' := by
  have exponents : twos = twos' := by
    rw [← factorization_two_pow_mul_odd twos isOdd, same,
      factorization_two_pow_mul_odd twos' isOdd']
  subst exponents
  exact ⟨rfl, Nat.eq_of_mul_eq_mul_left (by positivity) same⟩

theorem two_pow_dvd_iff {k twos odd : ℕ} (isOdd : Odd odd) : 2 ^ k ∣ 2 ^ twos * odd ↔ k ≤ twos := by
  have nonzero : 2 ^ twos * odd ≠ 0 := Nat.mul_ne_zero (by positivity) isOdd.pos.ne'
  rw [Nat.prime_two.pow_dvd_iff_le_factorization nonzero, factorization_two_pow_mul_odd twos isOdd]

/-! ## One base -/

section

variable {n : ℕ} (large : 2 ≤ n)

include large

theorem mod_eq_one_iff (k : ℕ) : k % n = 1 ↔ (k : ZMod n) = 1 := by
  have one : 1 % n = 1 := Nat.mod_eq_of_lt large
  rw [← Nat.cast_one (R := ZMod n), ZMod.natCast_eq_natCast_iff', one]

theorem mod_eq_pred_iff (k : ℕ) : k % n = n - 1 ↔ (k : ZMod n) = -1 := by
  have pred : ((n - 1 : ℕ) : ZMod n) = -1 := by
    rw [Nat.cast_sub (by omega), ZMod.natCast_self, Nat.cast_one, zero_sub]
  rw [← pred, ZMod.natCast_eq_natCast_iff', Nat.mod_eq_of_lt (show n - 1 < n by omega)]

theorem squaresReach_iff (count x : ℕ) :
    squaresReach n count x = true ↔ ∃ r < count, (x : ZMod n) ^ 2 ^ (r + 1) = -1 := by
  induction count generalizing x with
  | zero => simp [squaresReach]
  | succ count ih =>
    have square : ((x * x % n : ℕ) : ZMod n) = (x : ZMod n) ^ 2 := by
      rw [ZMod.natCast_mod, Nat.cast_mul, sq]
    rw [squaresReach, Bool.or_eq_true, beq_iff_eq, ih, mod_eq_pred_iff large, Nat.cast_mul, ← sq,
      square, Nat.exists_lt_succ_left, zero_add, pow_one]
    simp only [← pow_mul, ← pow_succ']

/-- The test compares the power itself with minus one before it squares it, and so makes `twos`
    comparisons with one squaring less. -/
theorem passesBase_iff {twos : ℕ} (even : 0 < twos) (odd a : ℕ) :
    passesBase n twos odd a = true ↔
      (a : ZMod n) ^ odd = 1 ∨ ∃ r < twos, (a : ZMod n) ^ (2 ^ r * odd) = -1 := by
  obtain ⟨count, rfl⟩ := Nat.exists_eq_add_of_le' even
  have power : ((a ^ odd % n : ℕ) : ZMod n) = (a : ZMod n) ^ odd := by
    rw [ZMod.natCast_mod, Nat.cast_pow]
  have squares (r : ℕ) : ((a : ZMod n) ^ odd) ^ 2 ^ r = (a : ZMod n) ^ (2 ^ r * odd) := by
    rw [← pow_mul, mul_comm]
  simp only [passesBase, powMod_eq a odd n (by omega), Bool.or_eq_true, beq_iff_eq,
    mod_eq_one_iff large, mod_eq_pred_iff large, squaresReach_iff large, Nat.cast_pow, power,
    squares, Nat.add_sub_cancel]
  rw [Nat.exists_lt_succ_left, pow_zero, one_mul, or_assoc]

end

/-! ## The whole test -/

/-- The decomposition that the test computes is the one of the definition, which is unique. -/
theorem passesBase_eq_true_iff {n twos odd : ℕ} (large : 2 ≤ n) (even : 0 < twos)
    (isOdd : Odd odd) (product : n - 1 = 2 ^ twos * odd) (a : ℕ) :
    passesBase n twos odd a = true ↔ StrongProbablePrime n a := by
  rw [passesBase_iff large even]
  constructor
  · intro passed
    exact ⟨_, _, product, isOdd, passed⟩
  · rintro ⟨twos', odd', product', isOdd', passed⟩
    obtain ⟨rfl, rfl⟩ := two_pow_mul_odd_inj isOdd isOdd' (product.symm.trans product')
    exact passed

/-- Without zero divisors one has no square roots but one and minus one. -/
theorem pow_eq_one_or_reach {R : Type*} [CommRing R] [NoZeroDivisors R] (x : R) (odd twos : ℕ)
    (unity : x ^ (2 ^ twos * odd) = 1) :
    x ^ odd = 1 ∨ ∃ r < twos, x ^ (2 ^ r * odd) = -1 := by
  induction twos with
  | zero => exact Or.inl (by rwa [pow_zero, one_mul] at unity)
  | succ twos ih =>
    rw [pow_succ', mul_assoc, mul_comm 2, pow_mul, sq] at unity
    rcases mul_self_eq_one_iff.mp unity with one | minusOne
    · rcases ih one with first | ⟨r, below, reached⟩
      · exact Or.inl first
      · exact Or.inr ⟨r, Nat.lt_succ_of_lt below, reached⟩
    · exact Or.inr ⟨twos, Nat.lt_succ_self twos, minusOne⟩

theorem strongProbablePrime_of_prime {n a : ℕ} (prime : n.Prime) (unit : ¬n ∣ a) :
    StrongProbablePrime n a := by
  have : Fact n.Prime := ⟨prime⟩
  have large := prime.two_le
  obtain ⟨twos, odd, isOdd, product⟩ := Nat.exists_eq_two_pow_mul_odd (n := n - 1) (by omega)
  have nonzero : (a : ZMod n) ≠ 0 := mt (ZMod.natCast_eq_zero_iff a n).mp unit
  have fermat := ZMod.pow_card_sub_one_eq_one nonzero
  rw [product] at fermat
  exact ⟨twos, odd, product, isOdd, pow_eq_one_or_reach _ odd twos fermat⟩

/-- What is left by the trial division passes for all bases exactly if it is prime or undetected. -/
theorem all_passesBase_iff {n twos odd : ℕ} (large : 2 ≤ n) (coprime : ∀ p ∈ smallPrimes, ¬p ∣ n)
    (isOdd : Odd odd) (product : n - 1 = 2 ^ twos * odd) :
    smallPrimes.all (passesBase n twos odd) = true ↔ n.Prime ∨ Undetected n := by
  -- As `n - 1` is even, the loop over the squares is entered.
  have even : 0 < twos := by
    rw [Nat.pos_iff_ne_zero]
    rintro rfl
    obtain ⟨k, half⟩ := isOdd
    have two : ¬2 ∣ n := coprime 2 (by decide)
    omega
  have bases (a : ℕ) := passesBase_eq_true_iff large even isOdd product a
  simp only [List.all_eq_true, bases]
  constructor
  · intro strong
    by_cases prime : n.Prime
    · exact Or.inl prime
    · exact Or.inr ⟨large, prime, coprime, strong⟩
  · rintro (prime | undetected)
    · intro a member
      refine strongProbablePrime_of_prime prime ?_
      intro divides
      have equal : n = a :=
        (Nat.prime_dvd_prime_iff_eq prime (prime_of_mem_smallPrimes a member)).mp divides
      exact coprime a member (equal ▸ Nat.dvd_refl n)
    · exact undetected.strong

/-- The test accepts what is prime or undetected, and says of the other numbers that they are not
    prime, unless it cannot count the factors of two. -/
theorem isProbablePrime_cases (n : ℕ) :
    (isProbablePrime n = .ok true ∧ (n.Prime ∨ Undetected n) ∧ ¬Uncounted n) ∨
      (isProbablePrime n = .ok false ∧ ¬(n.Prime ∨ Undetected n) ∧ ¬Uncounted n) ∨
      (isProbablePrime n = .error (.overflow .add) ∧ Uncounted n) := by
  by_cases small : n < 2
  · refine Or.inr (Or.inl ⟨if_pos small, ?_, fun uncounted => absurd uncounted.two_le (by omega)⟩)
    rintro (prime | undetected)
    · exact absurd prime.two_le (by omega)
    · exact absurd undetected.two_le (by omega)
  have large : 2 ≤ n := Nat.le_of_not_lt small
  rw [isProbablePrime, if_neg small]
  rcases trialDivision_cases n smallPrimes with ⟨verdict, listed⟩ | ⟨verdict, p, listed, proper⟩ |
    ⟨verdict, coprime⟩
  · rw [verdict]
    refine Or.inl ⟨rfl, Or.inl (prime_of_mem_smallPrimes n listed), ?_⟩
    exact fun uncounted => uncounted.not_dvd n listed (Nat.dvd_refl n)
  · rw [verdict]
    refine Or.inr (Or.inl ⟨rfl, ?_, fun uncounted => uncounted.not_dvd p listed proper.1⟩)
    rintro (prime | undetected)
    · have equal : p = n :=
        (Nat.prime_dvd_prime_iff_eq (prime_of_mem_smallPrimes p listed) prime).mp proper.1
      exact proper.2 equal
    · exact undetected.not_dvd p listed proper.1
  obtain ⟨twos, odd, isOdd, product⟩ := Nat.exists_eq_two_pow_mul_odd (n := n - 1) (by omega)
  have enough : n - 1 < 2 ^ bitLength (n - 1) :=
    Nat.lt_of_not_le (mt lt_bitLength_iff.mpr (Nat.lt_irrefl _))
  have split : splitTwos (bitLength (n - 1)) 0 (2 ^ twos * odd) = _ :=
    splitTwos_two_pow_mul (by decide) isOdd (product.symm.trans_lt enough)
  rw [← product, Nat.zero_add] at split
  have divides : 2 ^ twosLimit ∣ n - 1 ↔ ¬twos < twosLimit := by
    rw [product, two_pow_dvd_iff isOdd, Nat.not_lt]
  simp only [verdict, split]
  by_cases fits : twos < twosLimit
  · have counted : ¬Uncounted n := fun uncounted => divides.mp uncounted.dvd_pred fits
    have passed := all_passesBase_iff large coprime isOdd product
    simp only [if_pos fits, ok_bind, pure_eq_ok, ← passed]
    cases smallPrimes.all (passesBase n twos odd) <;> simp [counted]
  · have uncounted : Uncounted n := ⟨large, coprime, divides.mpr fits⟩
    rw [if_neg fits, error_bind]
    exact Or.inr (Or.inr ⟨rfl, uncounted⟩)

theorem isProbablePrime_eq_true_iff (n : ℕ) :
    isProbablePrime n = .ok true ↔ (n.Prime ∨ Undetected n) ∧ ¬Uncounted n := by
  rcases isProbablePrime_cases n with ⟨verdict, holds, counted⟩ | ⟨verdict, fails, -⟩ |
    ⟨verdict, uncounted⟩
  · simp [verdict, holds, counted]
  · simp [verdict, fails]
  · simp [verdict, uncounted]

theorem isProbablePrime_eq_error_iff (n : ℕ) :
    isProbablePrime n = .error (.overflow .add) ↔ Uncounted n := by
  rcases isProbablePrime_cases n with ⟨verdict, -, counted⟩ | ⟨verdict, -, counted⟩ |
    ⟨verdict, uncounted⟩
  · simp [verdict, counted]
  · simp [verdict, counted]
  · simp [verdict, uncounted]

/-! ## Uncounted numbers -/

/-- A number that is uncounted has more binary digits than half a word counts. -/
theorem Uncounted.lt {n : ℕ} (uncounted : Uncounted n) : 2 ^ twosLimit < n := by
  have large := uncounted.two_le
  have most := Nat.le_of_dvd (by omega) uncounted.dvd_pred
  omega

/-- The least prime factor of an undetected number is not one of the small primes. -/
theorem Undetected.square_le {n : ℕ} (undetected : Undetected n) : 41 ^ 2 ≤ n := by
  have large := undetected.two_le
  have prime : n.minFac.Prime := Nat.minFac_prime (by omega)
  have square : n.minFac ^ 2 ≤ n := Nat.minFac_sq_le_self (by omega) undetected.not_prime
  refine Nat.le_trans (Nat.pow_le_pow_left ?_ 2) square
  by_contra below
  have listed : ∀ p < 41, p.Prime → p ∈ smallPrimes := by decide
  exact undetected.not_dvd _ (listed _ (Nat.lt_of_not_le below) prime) (Nat.minFac_dvd n)

theorem PrimeField.exists_ofModulus_iff (n : ℕ) :
    (∃ field, ofModulus n = .ok field ∧ field.modulus = n) ↔ isProbablePrime n = .ok true := by
  constructor
  · rintro ⟨field, -, rfl⟩
    exact field.isProbablePrime_modulus
  · intro passed
    have large : 2 ≤ n := by
      by_contra small
      rw [isProbablePrime, if_pos (Nat.lt_of_not_le small)] at passed
      cases passed
    exact ⟨⟨n, large, passed⟩, ofModulus_eq_ok_iff.mpr rfl, rfl⟩

/-- A number is accepted, and taken as the modulus of a field, exactly if it is prime or an
    undetected composite number, of which there are none below the square of 41, and it is not
    uncounted, which is a fault and happens to no number of up to `2 ^ 32` binary digits. -/
theorem accepts_iff_prime_or_undetected (n : ℕ) :
    (isProbablePrime n = .ok true ↔ (n.Prime ∨ Undetected n) ∧ ¬Uncounted n) ∧
      ((∃ field, PrimeField.ofModulus n = .ok field ∧ field.modulus = n) ↔
        (n.Prime ∨ Undetected n) ∧ ¬Uncounted n) ∧
      (isProbablePrime n = .error (.overflow .add) ↔ Uncounted n) ∧
      (n ≤ 2 ^ twosLimit → ¬Uncounted n) ∧
      (n < 41 ^ 2 → (isProbablePrime n = .ok true ↔ n.Prime)) := by
  have accepted := isProbablePrime_eq_true_iff n
  have counted (small : n ≤ 2 ^ twosLimit) : ¬Uncounted n :=
    fun uncounted => Nat.not_lt.mpr small uncounted.lt
  refine ⟨accepted, (PrimeField.exists_ofModulus_iff n).trans accepted,
    isProbablePrime_eq_error_iff n, counted, ?_⟩
  intro below
  have power : 41 ^ 2 ≤ 2 ^ twosLimit :=
    Nat.le_trans (show 41 ^ 2 ≤ 2 ^ 11 by decide) (Nat.pow_le_pow_right Nat.two_pos (by decide))
  rw [accepted, and_iff_left (counted (by omega)), or_iff_left]
  exact fun undetected => Nat.not_le_of_lt below undetected.square_le

/-- The product of 399165290221 and 798330580441 is accepted. -/
theorem not_accepts_iff_prime :
    ¬∀ n, 2 ≤ n → n < 33 * 10 ^ 23 →
      (isProbablePrime n = .ok true ∧ (∃ field, PrimeField.ofModulus n = .ok field) ↔
        n.Prime) := by
  intro all
  have passed : isProbablePrime 318665857834031151167461 = .ok true := by decide +kernel
  obtain ⟨field, made, -⟩ := (PrimeField.exists_ofModulus_iff _).mpr passed
  have prime := (all 318665857834031151167461 (by decide) (by decide)).mp ⟨passed, field, made⟩
  have composite : ¬Nat.Prime (399165290221 * 798330580441) :=
    Nat.not_prime_mul (by decide) (by decide)
  exact composite prime

end CoinSpend
