/-!
# Digits

A list of digits stands for a number, the least significant digit first. The two directions work
by halves: two neighbouring digits are one digit to the square of the base, so a list is read by
joining its digits in pairs until one digit is left, and a number is written by splitting it in
two until the digits are small enough. That takes about as long as multiplying numbers of that
size does, however long the list is.

`ofDigits_cons` and `lowDigits_succ` say what comes out, one digit at a time.

Three things are made of digits. Bytes are the digits of a number to base 256. A decimal numeral
has the most significant digit first and no leading zero; zero alone is written with a zero digit,
and a reader takes leading zeros too. The power of a number by an exponent, modulo another, is
found with as many squarings as the exponent has binary digits.
-/

namespace CoinSpend

/-- The number of binary digits of `n`; zero has none. -/
def bitLength (n : Nat) : Nat :=
  if n = 0 then 0 else n.log2 + 1

theorem le_two_pow_bitLength (n : Nat) : n ≤ Nat.pow 2 (bitLength n) := by
  unfold bitLength
  split
  · omega
  · exact Nat.le_of_lt Nat.lt_log2_self

/-! ## From digits to a number -/

/-- Joins neighbouring digits to digits to the square of the base, by which `scale` multiplies. -/
def joinPairs (scale : Nat → Nat) : List Nat → List Nat
  | low :: high :: rest => (low + scale high) :: joinPairs scale rest
  | digits => digits

/-- The number that at most `2 ^ height` digits stand for. Multiplying by a base that is a power
    of two is a shift. -/
def joinDigits : Nat → Nat → List Nat → Nat
  | 0, _, digits => digits.headD 0
  | height + 1, base, digits =>
      let shift := base.log2
      if base = 1 <<< shift then
        joinDigits height (base <<< shift) (joinPairs (fun high => high <<< shift) digits)
      else
        joinDigits height (base * base) (joinPairs (fun high => base * high) digits)

/-- The number that the digits stand for. -/
def ofDigits (base : Nat) (digits : List Nat) : Nat :=
  joinDigits (bitLength digits.length) base digits

/-- The value of a list of digits, taken one by one. -/
private def weigh (base : Nat) (digits : List Nat) : Nat :=
  digits.foldr (fun digit higher => digit + base * higher) 0

private theorem weigh_joinPairs (base : Nat) (digits : List Nat) :
    weigh (base * base) (joinPairs (fun high => base * high) digits) = weigh base digits := by
  fun_induction joinPairs (fun high => base * high) digits with
  | case1 low high rest ih =>
    simp only [weigh, List.foldr_cons] at ih ⊢
    rw [ih]
    grind
  | case2 digits short =>
    match digits with
    | [] => rfl
    | [_] => simp [weigh]
    | low :: high :: rest => exact absurd rfl (short low high rest)

private theorem length_joinPairs (scale : Nat → Nat) (digits : List Nat) :
    (joinPairs scale digits).length = (digits.length + 1) / 2 := by
  fun_induction joinPairs scale digits with
  | case1 low high rest ih => simp [ih]; omega
  | case2 digits short =>
    match digits with
    | [] => rfl
    | [_] => simp
    | low :: high :: rest => exact absurd rfl (short low high rest)

private theorem joinDigits_succ (height base : Nat) (digits : List Nat) :
    joinDigits (height + 1) base digits
      = joinDigits height (base * base) (joinPairs (fun high => base * high) digits) := by
  simp only [joinDigits]
  split
  case isTrue power =>
    have shifted (n : Nat) : n <<< base.log2 = base * n := by
      rw [Nat.one_shiftLeft] at power
      rw [Nat.shiftLeft_eq, ← power, Nat.mul_comm]
    simp only [shifted]
  case isFalse => rfl

private theorem joinDigits_eq_weigh {height base : Nat} {digits : List Nat}
    (h : digits.length ≤ Nat.pow 2 height) : joinDigits height base digits = weigh base digits := by
  induction height generalizing base digits with
  | zero =>
    match digits with
    | [] => rfl
    | [_] => simp [joinDigits, weigh]
    | _ :: _ :: _ => simp at h
  | succ height ih =>
    rw [joinDigits_succ, ih, weigh_joinPairs]
    rw [length_joinPairs]
    have := Nat.pow_succ (n := 2) (m := height)
    simp only [Nat.pow_eq] at h ⊢
    omega

private theorem ofDigits_eq_weigh (base : Nat) (digits : List Nat) :
    ofDigits base digits = weigh base digits :=
  joinDigits_eq_weigh (le_two_pow_bitLength _)

theorem ofDigits_nil (base : Nat) : ofDigits base [] = 0 := rfl

theorem ofDigits_cons (base digit : Nat) (higher : List Nat) :
    ofDigits base (digit :: higher) = digit + base * ofDigits base higher := by
  simp [ofDigits_eq_weigh, weigh]

/-! ## From a number to digits -/

/-- The lowest `2 ^ height` digits of `n`. -/
def splitDigits : Nat → Nat → Nat → List Nat
  | 0, base, n => [n % base]
  | height + 1, base, n =>
      (splitDigits height (base * base) n).flatMap fun pair => [pair % base, pair / base]

/-- The lowest `width` digits of `n`. -/
def lowDigits (base width n : Nat) : List Nat :=
  (splitDigits (bitLength width) base n).take width

/-- The lowest `width` digits of `n`, taken off one by one. -/
private def peel (base : Nat) : Nat → Nat → List Nat
  | 0, _ => []
  | width + 1, n => n % base :: peel base width (n / base)

private theorem peel_square (base width n : Nat) :
    (peel (base * base) width n).flatMap (fun pair => [pair % base, pair / base])
      = peel base (2 * width) n := by
  induction width generalizing n with
  | zero => rfl
  | succ width ih =>
    simp only [peel, List.flatMap_cons, ih, Nat.mul_succ, List.cons_append, List.nil_append,
      Nat.mod_mul_right_mod, Nat.mod_mul_right_div_self, Nat.div_div_eq_div_mul]

private theorem splitDigits_eq_peel (height base n : Nat) :
    splitDigits height base n = peel base (Nat.pow 2 height) n := by
  induction height generalizing base with
  | zero => rfl
  | succ height ih =>
    rw [splitDigits, ih, peel_square]
    congr 1
    exact Nat.mul_comm _ _

private theorem take_peel {base width limit n : Nat} (h : width ≤ limit) :
    (peel base limit n).take width = peel base width n := by
  induction width generalizing limit n with
  | zero => rfl
  | succ width ih =>
    match limit, h with
    | limit + 1, h => simp [peel, ih (Nat.le_of_succ_le_succ h)]

private theorem lowDigits_eq_peel (base width n : Nat) :
    lowDigits base width n = peel base width n := by
  rw [lowDigits, splitDigits_eq_peel, take_peel (le_two_pow_bitLength width)]

theorem lowDigits_zero (base n : Nat) : lowDigits base 0 n = [] := rfl

theorem lowDigits_succ (base width n : Nat) :
    lowDigits base (width + 1) n = n % base :: lowDigits base width (n / base) := by
  simp [lowDigits_eq_peel, peel]

theorem length_lowDigits (base width n : Nat) : (lowDigits base width n).length = width := by
  induction width generalizing n with
  | zero => rfl
  | succ width ih => simp [lowDigits_succ, ih]

/-- The lowest `width` binary digits of `n`, as truth values. -/
def lowBits (width n : Nat) : List Bool :=
  (lowDigits 2 width n).map fun digit => digit == 1

theorem lowBits_zero (n : Nat) : lowBits 0 n = [] := rfl

theorem lowBits_succ (width n : Nat) :
    lowBits (width + 1) n = n.testBit 0 :: lowBits width (n / 2) := by
  simp [lowBits, lowDigits_succ, Nat.testBit_zero, Bool.beq_eq_decide_eq]

/-! ## Little-endian bytes -/

/-- The number that the bytes stand for. -/
def littleEndian (bytes : List UInt8) : Nat :=
  ofDigits 256 (bytes.map UInt8.toNat)

theorem littleEndian_nil : littleEndian [] = 0 := rfl

theorem littleEndian_cons (byte : UInt8) (rest : List UInt8) :
    littleEndian (byte :: rest) = byte.toNat + 256 * littleEndian rest := by
  simp [littleEndian, ofDigits_cons]

/-- The lowest `width` bytes of `n`. -/
def toLittleEndian (width n : Nat) : List UInt8 :=
  (lowDigits 256 width n).map UInt8.ofNat

theorem toLittleEndian_zero (n : Nat) : toLittleEndian 0 n = [] := rfl

theorem toLittleEndian_succ (width n : Nat) :
    toLittleEndian (width + 1) n = UInt8.ofNat n :: toLittleEndian width (n / 256) := by
  have : UInt8.ofNat (n % 256) = UInt8.ofNat n := UInt8.ofNat_mod_size
  simp [toLittleEndian, lowDigits_succ, this]

theorem length_toLittleEndian (width n : Nat) : (toLittleEndian width n).length = width := by
  simp [toLittleEndian, length_lowDigits]

/-! ## Decimal numerals -/

/-- The numeral of `n`. A digit is worth more than three bits, which bounds their number. -/
def decimal (n : Nat) : String :=
  let digits := (lowDigits 10 (bitLength n / 3 + 1) n).reverse.dropWhile (· == 0)
  if digits.isEmpty then "0" else String.ofList (digits.map Nat.digitChar)

/-- The number of a numeral, which has at least one digit and nothing else. -/
def ofDecimal? (text : String) : Option Nat :=
  let digits := text.toList
  if digits.isEmpty || !digits.all Char.isDigit then none
  else some (ofDigits 10 (digits.reverse.map fun digit => digit.toNat - '0'.toNat))

/-! ## Powers modulo a number -/

/-- The power of `base` by the exponent with the given bits, from the lowest one on: the power by
    the bits above the lowest one is squared, and multiplied by `base` once more if the lowest
    bit is set. -/
def powModBits (base modulus : Nat) (bits : List Bool) : Nat :=
  bits.foldr (fun bit upper =>
    let squared := upper * upper % modulus
    if bit then squared * base % modulus else squared) (1 % modulus)

/-- The power of `base` by `exponent`, modulo `modulus`. -/
def powMod (base exponent modulus : Nat) : Nat :=
  powModBits base modulus (lowBits (bitLength exponent) exponent)

theorem powModBits_lt {modulus : Nat} (positive : 0 < modulus) (base : Nat) (bits : List Bool) :
    powModBits base modulus bits < modulus := by
  cases bits with
  | nil => exact Nat.mod_lt _ positive
  | cons bit bits =>
    simp only [powModBits, List.foldr_cons]
    split <;> exact Nat.mod_lt _ positive

/-- The power is a representative below the modulus. -/
theorem powMod_lt {modulus : Nat} (positive : 0 < modulus) (base exponent : Nat) :
    powMod base exponent modulus < modulus :=
  powModBits_lt positive base _

end CoinSpend
