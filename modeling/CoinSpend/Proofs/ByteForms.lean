import CoinSpend.Coin
import CoinSpend.Proofs.Attempts
import CoinSpend.Proofs.BinaryPowers
import CoinSpend.Proofs.ByteNumbers
import CoinSpend.Proofs.Extraction

/-!
# Byte forms

A reader belongs to a writer if it reads back what was written, is not disturbed by the bytes that
follow, and reads nothing that would be longer when written. Readers one after the other keep these
laws, so that those of words and numbers carry over to parameters and published coins. It follows
that a byte form that is cut off is not read at all.
-/

namespace CoinSpend

open Residue

/-! ## Digits of a number -/

theorem digitCount_le_iff {n count : ℕ} : digitCount n ≤ count ↔ n < 256 ^ (4 * count) := by
  have bits : (256 : ℕ) ^ (4 * count) = 2 ^ (32 * count) := by
    rw [show (256 : ℕ) = 2 ^ 8 by rfl, ← pow_mul]
    congr 1
    omega
  have wide : 32 * count < bitLength n ↔ 2 ^ (32 * count) ≤ n := lt_bitLength_iff
  rw [bits, ← not_le, ← wide, digitCount]
  omega

/-- Whether a word counts the digits of a number, as it does for every number that memory holds.
    There is no byte form of larger numbers. -/
def HasByteForm (n : ℕ) : Prop :=
  digitCount n < Count.limit

theorem HasByteForm.of_le {n m : ℕ} (form : HasByteForm m) (h : n ≤ m) : HasByteForm n := by
  have fits : m < 256 ^ (4 * digitCount m) := digitCount_le_iff.mp (Nat.le_refl _)
  exact Nat.lt_of_le_of_lt (digitCount_le_iff.mpr (Nat.lt_of_le_of_lt h fits)) form

/-! ## Readers and writers -/

/-- Answers with what was read and the bytes that follow, or with nothing if the bytes end too
    early. -/
abbrev Reader (α : Type) := List UInt8 → Option (α × List UInt8)

namespace Reader

variable {α β : Type}

/-- One reader after the other. -/
def pair (first : Reader α) (second : Reader β) : Reader (α × β) := fun bytes => do
  let (a, bytes) ← first bytes
  let (b, bytes) ← second bytes
  return ((a, b), bytes)

/-- Restates what is read. -/
def restate (f : α → β) (take : Reader α) : Reader β := fun bytes =>
  (take bytes).map fun read => (f read.1, read.2)

/-- The laws of a reader for what a writer writes of the `admitted` values. -/
structure Reads (take : Reader α) (write : α → List UInt8) (admitted : α → Prop) : Prop where
  written : ∀ {a}, admitted a → take (write a) = some (a, [])
  extended : ∀ {bytes a rest}, take bytes = some (a, rest) →
    ∀ more, take (bytes ++ more) = some (a, rest ++ more)
  admits : ∀ {bytes a rest}, take bytes = some (a, rest) → admitted a
  length_le : ∀ {bytes a rest}, take bytes = some (a, rest) →
    (write a).length + rest.length ≤ bytes.length

section

variable {take : Reader α} {write : α → List UInt8} {admitted : α → Prop}
  (reads : take.Reads write admitted)

include reads

theorem Reads.append {a : α} (ok : admitted a) (more : List UInt8) :
    take (write a ++ more) = some (a, more) := by
  rw [reads.extended (reads.written ok) more, List.nil_append]

/-- If the beginning of a byte form were read, then so would be the whole, with bytes left over. -/
theorem Reads.truncated {a : α} (ok : admitted a) {bytes : List UInt8} (before : bytes <+: write a)
    (proper : bytes ≠ write a) : take bytes = none := by
  obtain ⟨more, whole⟩ := before
  cases read : take bytes with
  | none => rfl
  | some found =>
    obtain ⟨a', rest⟩ := found
    have again := reads.extended read more
    rw [whole, reads.written ok, Option.some.injEq, Prod.mk.injEq] at again
    have nothing : more = [] := (List.append_eq_nil_iff.mp again.2.symm).2
    rw [nothing, List.append_nil] at whole
    exact absurd whole proper

theorem Reads.restate {f : α → β} {g : β → α} (left : ∀ a, g (f a) = a) (right : ∀ b, f (g b) = b) :
    (take.restate f).Reads (fun b => write (g b)) fun b => admitted (g b) := by
  have opened {bytes rest : List UInt8} {b : β} (read : take.restate f bytes = some (b, rest)) :
      take bytes = some (g b, rest) := by
    obtain ⟨⟨a, rest'⟩, found, same⟩ := Option.map_eq_some_iff.mp read
    obtain ⟨rfl, rfl⟩ := Prod.mk.inj same
    rw [found, left]
  have closed {bytes rest : List UInt8} {b : β} (read : take bytes = some (g b, rest)) :
      take.restate f bytes = some (b, rest) := by
    rw [Reader.restate, read, Option.map_some, right]
  refine ⟨?_, ?_, ?_, ?_⟩
  · intro b ok
    exact closed (reads.written ok)
  · intro bytes b rest read more
    exact closed (reads.extended (opened read) more)
  · intro bytes b rest read
    exact reads.admits (opened read)
  · intro bytes b rest read
    exact reads.length_le (opened read)

end

theorem pair_eq_some_iff {first : Reader α} {second : Reader β} {bytes rest : List UInt8} {a : α}
    {b : β} :
    first.pair second bytes = some ((a, b), rest) ↔
      ∃ later, first bytes = some (a, later) ∧ second later = some (b, rest) := by
  simp only [pair, Option.bind_eq_bind, Option.bind_eq_some_iff, Option.pure_def,
    Option.some.injEq, Prod.mk.injEq, Prod.exists]
  constructor
  · rintro ⟨a', later, found, b', rest', found', ⟨rfl, rfl⟩, rfl⟩
    exact ⟨later, found, found'⟩
  · rintro ⟨later, found, found'⟩
    exact ⟨a, later, found, b, rest, found', ⟨rfl, rfl⟩, rfl⟩

theorem Reads.pair {first : Reader α} {second : Reader β} {write : α → List UInt8}
    {write' : β → List UInt8} {admitted : α → Prop} {admitted' : β → Prop}
    (reads : first.Reads write admitted) (reads' : second.Reads write' admitted') :
    (first.pair second).Reads (fun both => write both.1 ++ write' both.2)
      fun both => admitted both.1 ∧ admitted' both.2 := by
  refine ⟨?_, ?_, ?_, ?_⟩
  · rintro ⟨a, b⟩ ⟨ok, ok'⟩
    exact pair_eq_some_iff.mpr ⟨write' b, reads.append ok _, reads'.written ok'⟩
  · rintro bytes ⟨a, b⟩ rest read more
    obtain ⟨later, found, found'⟩ := pair_eq_some_iff.mp read
    exact pair_eq_some_iff.mpr
      ⟨later ++ more, reads.extended found more, reads'.extended found' more⟩
  · rintro bytes ⟨a, b⟩ rest read
    obtain ⟨later, found, found'⟩ := pair_eq_some_iff.mp read
    exact ⟨reads.admits found, reads'.admits found'⟩
  · rintro bytes ⟨a, b⟩ rest read
    obtain ⟨later, found, found'⟩ := pair_eq_some_iff.mp read
    have front := reads.length_le found
    have back := reads'.length_le found'
    dsimp only
    rw [List.length_append]
    omega

end Reader

/-! ## Words, numbers and shapes -/

theorem takeBytes_eq_some_iff {count : ℕ} {bytes front rest : List UInt8} :
    takeBytes count bytes = some (front, rest) ↔ front.length = count ∧ bytes = front ++ rest := by
  unfold takeBytes
  constructor
  · intro read
    split at read
    case isTrue => cases read
    case isFalse long =>
      rw [List.splitAt_eq, Option.some.injEq, Prod.mk.injEq] at read
      obtain ⟨rfl, rfl⟩ := read
      rw [List.length_take, List.take_append_drop]
      exact ⟨by omega, rfl⟩
  · rintro ⟨rfl, rfl⟩
    rw [if_neg (by simp), List.splitAt_eq, List.take_left, List.drop_left]

theorem length_encodeWord (word : UInt64) : (encodeWord word).length = 8 :=
  length_toLittleEndian 8 _

theorem takeWord_eq_some_iff {bytes rest : List UInt8} {word : UInt64} :
    takeWord bytes = some (word, rest) ↔ bytes = encodeWord word ++ rest := by
  have opened : takeWord bytes = some (word, rest) ↔
      ∃ front, takeBytes 8 bytes = some (front, rest) ∧
        UInt64.ofNat (littleEndian front) = word := by
    simp [takeWord, Option.bind_eq_some_iff]
  rw [opened]
  constructor
  · rintro ⟨front, read, rfl⟩
    obtain ⟨length, rfl⟩ := takeBytes_eq_some_iff.mp read
    have small : littleEndian front < 2 ^ 64 := by
      have below := littleEndian_lt front
      rwa [length] at below
    rw [encodeWord, UInt64.toNat_ofNat_of_lt' small, ← length, toLittleEndian_littleEndian]
  · rintro rfl
    refine ⟨encodeWord word, takeBytes_eq_some_iff.mpr ⟨length_encodeWord word, rfl⟩, ?_⟩
    have small : word.toNat < 256 ^ 8 := word.toNat_lt
    rw [encodeWord, littleEndian_toLittleEndian, Nat.mod_eq_of_lt small, UInt64.ofNat_toNat]

theorem reads_takeWord : Reader.Reads takeWord encodeWord fun _ => True := by
  refine ⟨?_, ?_, ?_, ?_⟩
  · intro word _
    rw [takeWord_eq_some_iff, List.append_nil]
  · intro bytes word rest read more
    rw [takeWord_eq_some_iff] at read ⊢
    rw [read, List.append_assoc]
  · intros
    trivial
  · intro bytes word rest read
    rw [takeWord_eq_some_iff.mp read, List.length_append]

theorem takeNumber_eq_some_iff {bytes rest : List UInt8} {n : ℕ} :
    takeNumber bytes = some (n, rest) ↔
      ∃ (count : UInt64) (digits : List UInt8), digits.length = 4 * count.toNat ∧
        bytes = encodeWord count ++ (digits ++ rest) ∧ littleEndian digits = n := by
  simp only [takeNumber, Option.bind_eq_bind, Option.bind_eq_some_iff, Option.pure_def,
    Option.some.injEq, Prod.mk.injEq, Prod.exists, takeWord_eq_some_iff, takeBytes_eq_some_iff]
  constructor
  · rintro ⟨count, later, rfl, digits, rest', ⟨length, rfl⟩, value, rfl⟩
    exact ⟨count, digits, length, rfl, value⟩
  · rintro ⟨count, digits, length, rfl, value⟩
    exact ⟨count, _, rfl, digits, rest, ⟨length, rfl⟩, value, rfl⟩

theorem length_encodeNumber (n : ℕ) : (encodeNumber n).length = 8 + 4 * digitCount n := by
  rw [encodeNumber, List.length_append, length_encodeWord, length_toLittleEndian]

/-- Zero high digits may be read, but they are never written. -/
theorem reads_takeNumber : Reader.Reads takeNumber encodeNumber HasByteForm := by
  have digits_le {digits : List UInt8} {count : UInt64} (length : digits.length = 4 * count.toNat) :
      digitCount (littleEndian digits) ≤ count.toNat := by
    rw [digitCount_le_iff, ← length]
    exact littleEndian_lt digits
  refine ⟨?_, ?_, ?_, ?_⟩
  · intro n form
    have count : (UInt64.ofNat (digitCount n)).toNat = digitCount n :=
      UInt64.toNat_ofNat_of_lt' form
    have value : n % 256 ^ (4 * digitCount n) = n :=
      Nat.mod_eq_of_lt (digitCount_le_iff.mp (Nat.le_refl _))
    refine takeNumber_eq_some_iff.mpr
      ⟨UInt64.ofNat (digitCount n), toLittleEndian (4 * digitCount n) n, ?_, ?_, ?_⟩
    · rw [length_toLittleEndian, count]
    · rw [encodeNumber, List.append_nil]
    · rw [littleEndian_toLittleEndian, value]
  · intro bytes n rest read more
    obtain ⟨count, digits, length, rfl, value⟩ := takeNumber_eq_some_iff.mp read
    refine takeNumber_eq_some_iff.mpr ⟨count, digits, length, ?_, value⟩
    simp only [List.append_assoc]
  · intro bytes n rest read
    obtain ⟨count, digits, length, rfl, rfl⟩ := takeNumber_eq_some_iff.mp read
    exact Nat.lt_of_le_of_lt (digits_le length) count.toNat_lt
  · intro bytes n rest read
    obtain ⟨count, digits, length, rfl, rfl⟩ := takeNumber_eq_some_iff.mp read
    have fewer := digits_le length
    rw [length_encodeNumber, List.length_append, List.length_append, length_encodeWord, length]
    omega

/-- The four words of a shape in their order. -/
def Shape.words (shape : Shape) : UInt64 × UInt64 × UInt64 × UInt64 :=
  (shape.columns, shape.rows, shape.serialSize, shape.pads)

/-- The shape with the given words. -/
def Shape.ofWords (words : UInt64 × UInt64 × UInt64 × UInt64) : Shape :=
  ⟨words.1, words.2.1, words.2.2.1, words.2.2.2⟩

theorem takeShape_eq :
    takeShape = Reader.restate Shape.ofWords
      (.pair takeWord (.pair takeWord (.pair takeWord takeWord))) := by
  funext bytes
  simp only [takeShape, Reader.pair, Reader.restate, Option.bind_eq_bind, Option.bind_assoc,
    Option.pure_def, Option.bind_some, Option.map_bind, Function.comp_def, Option.map_some,
    Shape.ofWords]

theorem reads_takeShape : Reader.Reads takeShape Shape.encode fun _ => True := by
  have words := (reads_takeWord.pair (reads_takeWord.pair (reads_takeWord.pair
    reads_takeWord))).restate (f := Shape.ofWords) (g := Shape.words) (fun _ => rfl) fun _ => rfl
  have encoded : (fun shape : Shape => encodeWord shape.words.1 ++ (encodeWord shape.words.2.1
      ++ (encodeWord shape.words.2.2.1 ++ encodeWord shape.words.2.2.2))) = Shape.encode := by
    funext shape
    simp only [Shape.encode, Shape.words, List.append_assoc]
  simp only [and_true] at words
  rw [takeShape_eq, ← encoded]
  exact words

/-! ## Parameters and published coins -/

/-- What a byte form guarantees: it is read back whatever follows it, it is not read when cut off,
    and what is read of any bytes has a byte form that is no longer. -/
structure LawfulForm {α : Type} (encode : α → List UInt8)
    (decode : List UInt8 → Attempt DecodeError α) (admitted : α → Prop) : Prop where
  roundTrip : ∀ a, admitted a → ∀ more, decode (encode a ++ more) = .ok a
  truncated : ∀ a, admitted a → ∀ bytes, bytes <+: encode a → bytes ≠ encode a →
    decode bytes = .refuse .unexpectedEnd
  reencoded : ∀ bytes a, decode bytes = .ok a →
    admitted a ∧ (encode a).length ≤ bytes.length ∧ decode (encode a) = .ok a

/-- The first value of the bytes, if it is accepted. -/
def Reader.accepting {α β : Type} (take : Reader α) (accept : α → Attempt DecodeError β)
    (bytes : List UInt8) : Attempt DecodeError β :=
  match take bytes with
  | none => .refuse .unexpectedEnd
  | some (a, _) => accept a

/-- A reader whose values are accepted as those that they are the `parts` of. -/
theorem Reader.Reads.lawfulForm {α β : Type} {take : Reader α} {write : α → List UInt8}
    {admitted : α → Prop} (reads : take.Reads write admitted) {accept : α → Attempt DecodeError β}
    {parts : β → α} (accepts : ∀ a b, accept a = .ok b ↔ parts b = a) :
    LawfulForm (fun b => write (parts b)) (take.accepting accept) fun b => admitted (parts b) := by
  have roundTrip (b : β) (ok : admitted (parts b)) (more : List UInt8) :
      take.accepting accept (write (parts b) ++ more) = .ok b := by
    rw [Reader.accepting, reads.append ok]
    exact (accepts _ _).mpr rfl
  refine ⟨roundTrip, ?_, ?_⟩
  · intro b ok bytes before proper
    rw [Reader.accepting, reads.truncated ok before proper]
  · intro bytes b decoded
    unfold Reader.accepting at decoded
    split at decoded
    case h_1 => cases decoded
    case h_2 a rest read =>
      obtain rfl := (accepts _ _).mp decoded
      have admits := reads.admits read
      have shorter := reads.length_le read
      have again := roundTrip b admits []
      rw [List.append_nil] at again
      exact ⟨admits, by omega, again⟩

namespace PrimeField

theorem residue_value {field : PrimeField} {x : Residue} (contained : field.Contains x) :
    field.residue x.value = x :=
  (field.residue_eq x.value).trans (ofZMod_toZMod contained)

end PrimeField

namespace Parameters

theorem generator_eq_ok {field : PrimeField} (name : Generator) {x : Residue}
    (isGenerator : field.IsGenerator x) :
    generator field name x.value = .ok ⟨x, isGenerator⟩ := by
  have range : 2 ≤ x.value ∧ x.value < field.modulus :=
    ⟨isGenerator.2, Nat.lt_of_lt_of_eq x.value_lt isGenerator.1⟩
  rw [generator, dif_pos range]
  exact congrArg Except.ok (Subtype.ext (PrimeField.residue_value isGenerator.1))

theorem value_of_generator {field : PrimeField} {name : Generator} {n : ℕ}
    {x : { x : Residue // field.IsGenerator x }} (made : generator field name n = .ok x) :
    x.val.value = n := by
  unfold generator at made
  split at made
  case isTrue range =>
    obtain rfl := Except.ok.inj made
    exact Nat.mod_eq_of_lt range.2
  case isFalse => cases made

/-- The numbers that parameters are made of. -/
def numbers (p : Parameters) : ℕ × ℕ × ℕ × Shape :=
  (p.field.modulus, p.g.value, p.h.value, p.shape)

/-- Numbers are accepted exactly as the parameters that are made of them. -/
theorem ofNumbers_eq_ok_iff {q g h : ℕ} {shape : Shape} {p : Parameters} :
    ofNumbers q g h shape = .ok p ↔ p.numbers = (q, g, h, shape) := by
  have own (p : Parameters) :
      ofNumbers p.field.modulus p.g.value p.h.value p.shape = .ok p := by
    have field := PrimeField.ofModulus_eq_ok_iff.mpr (rfl : p.field.modulus = _)
    have first := generator_eq_ok .g p.isGenerator_g
    have second := generator_eq_ok .h p.isGenerator_h
    rw [ofNumbers, field]
    simp only [Attempt.restate_ok, ok_bind, first, second, dif_pos p.usable_shape]
    rfl
  constructor
  · intro accepted
    obtain ⟨field, inField, accepted⟩ := bind_eq_ok_iff.mp accepted
    obtain ⟨x, first, accepted⟩ := bind_eq_ok_iff.mp accepted
    obtain ⟨y, second, accepted⟩ := bind_eq_ok_iff.mp accepted
    have modulus : field.modulus = q :=
      PrimeField.ofModulus_eq_ok_iff.mp (Attempt.restate_eq_ok_iff.mp inField)
    have usable : shape.Usable := by
      by_contra unusable
      rw [dif_neg unusable] at accepted
      cases accepted
    rw [dif_pos usable] at accepted
    cases accepted
    simp only [numbers, Prod.mk.injEq, and_true]
    exact ⟨modulus, value_of_generator first, value_of_generator second⟩
  · intro same
    simp only [numbers, Prod.mk.injEq] at same
    obtain ⟨rfl, rfl, rfl, rfl⟩ := same
    exact own p

theorem takeNumbers_eq :
    takeNumbers
      = Reader.pair takeNumber (Reader.pair takeNumber (Reader.pair takeNumber takeShape)) := by
  funext bytes
  simp only [takeNumbers, Reader.pair, Option.bind_eq_bind, Option.bind_assoc, Option.pure_def,
    Option.bind_some]

/-- Checks the numbers that were read. -/
def accept (numbers : ℕ × ℕ × ℕ × Shape) : Attempt DecodeError Parameters :=
  (ofNumbers numbers.1 numbers.2.1 numbers.2.2.1 numbers.2.2.2).restate .rejected

theorem accept_eq_ok_iff (numbers : ℕ × ℕ × ℕ × Shape) (p : Parameters) :
    accept numbers = .ok p ↔ p.numbers = numbers := by
  rw [accept, Attempt.restate_eq_ok_iff, ofNumbers_eq_ok_iff]

theorem decode_eq : decode = Reader.accepting takeNumbers accept := by
  funext bytes
  rw [decode, Reader.accepting]
  cases takeNumbers bytes <;> rfl

/-- The generators are below the modulus, so that only its digits need to be counted. -/
theorem hasByteForm_iff (p : Parameters) :
    (HasByteForm p.numbers.1 ∧ HasByteForm p.numbers.2.1 ∧ HasByteForm p.numbers.2.2.1 ∧ True)
      ↔ HasByteForm p.field.modulus := by
  have below {x : Residue} (contained : p.field.Contains x) : x.value ≤ p.field.modulus :=
    Nat.le_of_lt (Nat.lt_of_lt_of_eq x.value_lt contained)
  constructor
  · exact And.left
  · intro form
    exact ⟨form, form.of_le (below p.isGenerator_g.1), form.of_le (below p.isGenerator_h.1),
      trivial⟩

theorem lawfulForm : LawfulForm encode decode fun p => HasByteForm p.field.modulus := by
  have reads := reads_takeNumber.pair (reads_takeNumber.pair
    (reads_takeNumber.pair reads_takeShape))
  have lawful := reads.lawfulForm accept_eq_ok_iff
  have encoded : (fun p : Parameters => encodeNumber p.numbers.1 ++ (encodeNumber p.numbers.2.1
      ++ (encodeNumber p.numbers.2.2.1 ++ p.numbers.2.2.2.encode))) = encode := by
    funext p
    simp only [encode, numbers, List.append_assoc]
  simp only [hasByteForm_iff, encoded] at lawful
  rw [decode_eq, takeNumbers_eq]
  exact lawful

end Parameters

theorem Commitment.lawfulForm :
    LawfulForm Commitment.encode Commitment.decode fun c => HasByteForm c.value := by
  have accepts (n : ℕ) (c : Commitment) :
      (.ok ⟨n⟩ : Attempt DecodeError Commitment) = .ok c ↔ c.value = n := by
    obtain ⟨value⟩ := c
    simp [eq_comm]
  have decoded : Commitment.decode = Reader.accepting takeNumber fun n => .ok ⟨n⟩ := by
    funext bytes
    rw [Commitment.decode, Reader.accepting]
    cases takeNumber bytes <;> rfl
  rw [decoded]
  exact reads_takeNumber.lawfulForm accepts

/-- Parameters and published coins are read back from their byte form, whatever bytes follow it, and
    every proper beginning of it ends too early. Whatever bytes they are read from, the parameters
    are accepted by the checks of new ones, and their byte form, like that of a published coin, is
    no longer than the bytes and gives them again. -/
theorem byteForms_lawful :
    LawfulForm Parameters.encode Parameters.decode (fun p => HasByteForm p.field.modulus) ∧
    (∀ bytes p, Parameters.decode bytes = .ok p →
      Parameters.ofNumbers p.field.modulus p.g.value p.h.value p.shape = .ok p) ∧
    LawfulForm Commitment.encode Commitment.decode fun c => HasByteForm c.value := by
  refine ⟨Parameters.lawfulForm, ?_, Commitment.lawfulForm⟩
  intro bytes p _
  exact Parameters.ofNumbers_eq_ok_iff.mpr rfl

/-- A byte after the parameters is ignored and a missing one is noticed. A published coin with a
    zero high digit is read, and is written without it. -/
theorem byteForms_lawful_seven :
    let long : List UInt8 := [2, 0, 0, 0, 0, 0, 0, 0, 5, 0, 0, 0, 0, 0, 0, 0]
    Parameters.decode (Parameters.seven.encode ++ [255]) = .ok .seven ∧
      Parameters.decode Parameters.seven.encode.dropLast = .refuse .unexpectedEnd ∧
      Commitment.decode long = .ok ⟨5⟩ ∧
      (Commitment.encode ⟨5⟩).length ≤ long.length ∧
      Commitment.decode (Commitment.encode ⟨5⟩) = .ok ⟨5⟩ := by
  obtain ⟨parameters, -, commitments⟩ := byteForms_lawful
  have form : HasByteForm Parameters.seven.field.modulus := by
    unfold HasByteForm
    decide
  have read : Commitment.decode [2, 0, 0, 0, 0, 0, 0, 0, 5, 0, 0, 0, 0, 0, 0, 0] = .ok ⟨5⟩ := by
    decide
  refine ⟨parameters.roundTrip _ form _, ?_, read, (commitments.reencoded _ _ read).2⟩
  exact parameters.truncated _ form _ (List.dropLast_prefix _) (by decide)

end CoinSpend
