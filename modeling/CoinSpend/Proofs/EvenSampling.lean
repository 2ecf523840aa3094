import CoinSpend.Proofs.ByteNumbers
import CoinSpend.Proofs.Extraction
import Mathlib.Data.Int.CardIntervalMod
import Mathlib.Data.Set.Card
import Mathlib.Tactic.Linarith

/-!
# How evenly numbers are sampled

A sampler turns the bytes that it draws into a number, and how often a number comes up is the
number of byte strings that it is made from. A random number of a given width takes all its values
equally often. A residue is a number of some bytes modulo the modulus of the field, and so two
residues differ by at most one string: with sixteen bytes to spare, next to nothing.
-/

namespace CoinSpend

namespace ByteStream

/-- The stream with the given bytes as the next ones. -/
def startingWith (stream : ByteStream) (bytes : List UInt8) : ByteStream :=
  { stream with
    byteAt := fun i =>
      if i < stream.drawn then stream.byteAt i
      else bytes[i - stream.drawn]?.getD (stream.byteAt i) }

theorem draw_startingWith (stream : ByteStream) (bytes : List UInt8) :
    ((stream.startingWith bytes).draw bytes.length).1 = bytes := by
  apply List.ext_getElem
  · exact length_draw _ _
  · intro i _ below
    simp [draw, startingWith, below]

/-- The number of strings of `width` bytes from which the sampler makes the value when they come
    next. -/
noncomputable def occurrences {α : Type} (stream : ByteStream) (width : ℕ)
    (sampler : ByteStream → α × ByteStream) (value : α) : ℕ :=
  {bytes : List UInt8 | bytes.length = width ∧
    (sampler (stream.startingWith bytes)).1 = value}.ncard

theorem occurrences_eq {α : Type} {stream : ByteStream} {width : ℕ}
    {sampler : ByteStream → α × ByteStream} {value : α} {P : List UInt8 → Prop}
    (made : ∀ bytes : List UInt8, bytes.length = width →
      ((sampler (stream.startingWith bytes)).1 = value ↔ P bytes)) :
    stream.occurrences width sampler value
      = {bytes : List UInt8 | bytes.length = width ∧ P bytes}.ncard := by
  rw [occurrences]
  congr 1
  ext bytes
  exact and_congr_right (made bytes)

end ByteStream

/-! ## Strings of bytes as numbers -/

theorem bijOn_littleEndian (width : ℕ) :
    Set.BijOn littleEndian {bytes : List UInt8 | bytes.length = width} (Set.Iio (256 ^ width)) := by
  refine ⟨?_, ?_, ?_⟩
  · rintro bytes rfl
    exact littleEndian_lt bytes
  · rintro bytes rfl others length same
    rw [← toLittleEndian_littleEndian bytes, same, ← length, toLittleEndian_littleEndian]
  · intro n small
    refine ⟨toLittleEndian width n, length_toLittleEndian width n, ?_⟩
    rw [littleEndian_toLittleEndian, Nat.mod_eq_of_lt small]

/-- There are as many strings of `width` bytes whose number has a property as there are such numbers
    below `256 ^ width`. -/
theorem ncard_strings (width : ℕ) (P : ℕ → Prop) [DecidablePred P] :
    {bytes : List UInt8 | bytes.length = width ∧ P (littleEndian bytes)}.ncard
      = Nat.count P (256 ^ width) := by
  have numbers : Set.BijOn littleEndian
      {bytes : List UInt8 | bytes.length = width ∧ P (littleEndian bytes)}
      (Set.Iio (256 ^ width) ∩ {k | P k}) :=
    (bijOn_littleEndian width).inter_mapsTo (fun _ has => has) (fun _ has => has.2)
  have below : Set.Iio (256 ^ width) ∩ {k | P k}
      = ((Finset.range (256 ^ width)).filter P : Finset ℕ) := by
    ext k
    simp
  rw [numbers.ncard_eq, below, Set.ncard_coe_finset, Nat.count_eq_card_filter_range]

/-- The strings of `width` bytes whose number is `n` modulo `r`: every class has the same number of
    them, but for one more in the classes that the last, incomplete round of them reaches. -/
theorem ncard_strings_of_class {r n : ℕ} (width : ℕ) (small : n < r) :
    {bytes : List UInt8 | bytes.length = width ∧ littleEndian bytes % r = n}.ncard
      = 256 ^ width / r + if n < 256 ^ width % r then 1 else 0 := by
  have counted := ncard_strings width fun k => k ≡ n [MOD r]
  rw [Nat.count_modEq_card _ (Nat.zero_lt_of_lt small)] at counted
  simpa only [Nat.ModEq, Nat.mod_eq_of_lt small] using counted

/-! ## Random numbers -/

theorem drawn_randomNumber (bits : ℕ) (stream : ByteStream) :
    (randomNumber bits stream).2.drawn = stream.drawn + bytesFor bits := rfl

theorem randomNumber_startingWith {bits : ℕ} {bytes : List UInt8}
    (enough : bytes.length = bytesFor bits) (stream : ByteStream) :
    (randomNumber bits (stream.startingWith bytes)).1 = littleEndian bytes % 2 ^ bits := by
  have drawn := stream.draw_startingWith bytes
  rw [enough] at drawn
  rw [← numberOfBytes_eq enough]
  exact congrArg (numberOfBytes bits) drawn

/-- Every number of the given width is made from the same number of strings, twice as many for every
    bit that is cleared. -/
theorem occurrences_randomNumber {bits n : ℕ} (small : n < 2 ^ bits) (stream : ByteStream) :
    stream.occurrences (bytesFor bits) (randomNumber bits) n = 2 ^ (8 * bytesFor bits - bits) := by
  have room : bits ≤ 8 * bytesFor bits := by
    unfold bytesFor
    omega
  have power : 256 ^ bytesFor bits = 2 ^ bits * 2 ^ (8 * bytesFor bits - bits) := by
    rw [← pow_add, Nat.add_sub_cancel' room, pow_mul]
    rfl
  have strings : stream.occurrences (bytesFor bits) (randomNumber bits) n
      = {bytes : List UInt8 | bytes.length = bytesFor bits ∧
          littleEndian bytes % 2 ^ bits = n}.ncard := by
    apply ByteStream.occurrences_eq
    intro bytes enough
    rw [randomNumber_startingWith enough]
  -- The power of two divides the number of all strings, so that no round is incomplete.
  rw [strings, ncard_strings_of_class _ small, power, Nat.mul_mod_right,
    Nat.mul_div_cancel_left _ (by positivity), if_neg (Nat.not_lt_zero n), Nat.add_zero]

/-! ## Random residues -/

namespace PrimeField

variable (field : PrimeField)

theorem drawn_sample (stream : ByteStream) :
    (field.sample stream).2.drawn = stream.drawn + field.sampleWidth := rfl

theorem sample_startingWith {bytes : List UInt8} (enough : bytes.length = field.sampleWidth)
    (stream : ByteStream) :
    (field.sample (stream.startingWith bytes)).1 = field.residue (littleEndian bytes) := by
  have drawn := stream.draw_startingWith bytes
  rw [enough] at drawn
  exact congrArg field.residueOfBytes drawn

theorem residue_eq_iff {x : Residue} (contained : field.Contains x) (n : ℕ) :
    field.residue n = x ↔ n % field.modulus = x.value := by
  obtain ⟨modulus, value, small⟩ := x
  simp [residue, show modulus = field.modulus from contained]

/-- How often a residue is made from just enough bytes. -/
theorem occurrences_sample {x : Residue} (contained : field.Contains x) (stream : ByteStream) :
    stream.occurrences field.sampleWidth field.sample x
      = 256 ^ field.sampleWidth / field.modulus
        + if x.value < 256 ^ field.sampleWidth % field.modulus then 1 else 0 := by
  have small : x.value < field.modulus := Nat.lt_of_lt_of_eq x.value_lt contained
  rw [← ncard_strings_of_class _ small]
  apply ByteStream.occurrences_eq
  intro bytes enough
  rw [field.sample_startingWith enough, field.residue_eq_iff contained]

theorem occurrences_sample_cases {x : Residue} (contained : field.Contains x)
    (stream : ByteStream) :
    stream.occurrences field.sampleWidth field.sample x
        = 256 ^ field.sampleWidth / field.modulus ∨
      stream.occurrences field.sampleWidth field.sample x
        = 256 ^ field.sampleWidth / field.modulus + 1 := by
  rw [field.occurrences_sample contained]
  split
  · exact Or.inr rfl
  · exact Or.inl rfl

/-- The bytes that are drawn for a residue have sixteen bytes to spare. -/
theorem modulus_mul_lt : field.modulus * 2 ^ 128 < 256 ^ field.sampleWidth := by
  have bits : field.modulus < 2 ^ bitLength field.modulus :=
    Nat.not_le.mp (mt lt_bitLength_iff.mpr (Nat.lt_irrefl _))
  have bytes : 2 ^ bitLength field.modulus ≤ 256 ^ bytesFor (bitLength field.modulus) := by
    rw [show (256 : ℕ) = 2 ^ 8 by rfl, ← pow_mul]
    apply Nat.pow_le_pow_right Nat.two_pos
    unfold bytesFor
    omega
  have slack : 256 ^ field.sampleWidth
      = 256 ^ bytesFor (bitLength field.modulus) * 2 ^ 128 := by
    rw [sampleWidth, slackBytes, pow_add]
    rfl
  rw [slack]
  exact Nat.mul_lt_mul_of_pos_right (Nat.lt_of_lt_of_le bits bytes) (by positivity)

/-- The statistical distance of a sampled residue from a uniform one when all strings of bytes are
    equally likely: half of what the probabilities of all residues are off by. -/
noncomputable def samplingDistance (stream : ByteStream) : ℚ :=
  (∑ n ∈ Finset.range field.modulus,
    |(stream.occurrences field.sampleWidth field.sample (field.residue n) : ℚ)
        / 256 ^ field.sampleWidth - 1 / field.modulus|) / 2

/-- A share that is rounded down or up is off by no more than one part of the total. -/
theorem abs_share_sub_le {total parts count : ℕ} (positive : 0 < total) (divided : 0 < parts)
    (rounded : count = total / parts ∨ count = total / parts + 1) :
    |(count : ℚ) / total - 1 / parts| ≤ 1 / total := by
  have whole : (0 : ℚ) < total := Nat.cast_pos.mpr positive
  have part : (0 : ℚ) < parts := Nat.cast_pos.mpr divided
  have rest : total / parts * parts + total % parts = total := Nat.div_add_mod' total parts
  have below : total % parts < parts := Nat.mod_lt _ divided
  have low : total ≤ count * parts + parts := by
    rcases rounded with rfl | rfl
    · omega
    · rw [Nat.succ_mul]
      omega
  have high : count * parts ≤ total + parts := by
    rcases rounded with rfl | rfl
    · omega
    · rw [Nat.succ_mul]
      omega
  have off : |(count : ℚ) * parts - total| ≤ parts := by
    have low' : (total : ℚ) ≤ count * parts + parts := by exact_mod_cast low
    have high' : (count : ℚ) * parts ≤ total + parts := by exact_mod_cast high
    rw [abs_le]
    constructor <;> linarith
  calc |(count : ℚ) / total - 1 / parts|
    _ = |(count : ℚ) * parts - total| / (total * parts) := by
      rw [div_sub_div _ _ whole.ne' part.ne', mul_one, abs_div, abs_of_pos (mul_pos whole part)]
    _ ≤ parts / (total * parts) := by gcongr
    _ = 1 / total := by rw [div_mul_cancel_right₀ part.ne', one_div]

theorem samplingDistance_lt (stream : ByteStream) :
    field.samplingDistance stream < 1 / 2 ^ 128 := by
  have total : (0 : ℚ) < 256 ^ field.sampleWidth := by positivity
  have each (n : ℕ) (member : n ∈ Finset.range field.modulus) :
      |(stream.occurrences field.sampleWidth field.sample (field.residue n) : ℚ)
          / 256 ^ field.sampleWidth - 1 / field.modulus| ≤ 1 / 256 ^ field.sampleWidth := by
    have positive : 0 < field.modulus := Nat.lt_of_lt_of_le Nat.two_pos field.two_le_modulus
    have strings : 0 < 256 ^ field.sampleWidth := by positivity
    have rounded := abs_share_sub_le strings positive
      (field.occurrences_sample_cases (field.contains_residue n) stream)
    rwa [Nat.cast_pow, Nat.cast_ofNat] at rounded
  have sum := Finset.sum_le_card_nsmul _ _ _ each
  rw [Finset.card_range, nsmul_eq_mul, mul_one_div] at sum
  have slack : (field.modulus : ℚ) / 256 ^ field.sampleWidth < 1 / 2 ^ 128 := by
    rw [div_lt_div_iff₀ total (by positivity), one_mul]
    exact_mod_cast field.modulus_mul_lt
  have nonneg : (0 : ℚ) ≤ field.modulus / 256 ^ field.sampleWidth :=
    div_nonneg (Nat.cast_nonneg _) total.le
  rw [samplingDistance]
  linarith

end PrimeField

/-- Whatever was drawn before, a random number of a given width is below the power of two, and all
    such numbers are made from the same number of strings of just enough bytes. A residue is drawn
    with sixteen bytes more than its modulus has. The strings are shared out among the residues as
    evenly as can be, so that a sampled residue is next to uniform. -/
theorem sampled_evenly (stream : ByteStream) :
    (∀ bits : ℕ,
      let width := (bits + 7) / 8
      (randomNumber bits stream).2.drawn = stream.drawn + width ∧
      (∀ bytes : List UInt8, bytes.length = width →
        (randomNumber bits (stream.startingWith bytes)).1 < 2 ^ bits) ∧
      ∀ n < 2 ^ bits,
        stream.occurrences width (randomNumber bits) n = 2 ^ (8 * width - bits)) ∧
    ∀ field : PrimeField,
      let width := (bitLength field.modulus + 7) / 8 + 16
      (field.sample stream).2.drawn = stream.drawn + width ∧
      (∀ x, field.Contains x →
        stream.occurrences width field.sample x = 256 ^ width / field.modulus ∨
        stream.occurrences width field.sample x = 256 ^ width / field.modulus + 1) ∧
      field.samplingDistance stream < 1 / 2 ^ 128 := by
  constructor
  · intro bits width
    refine ⟨drawn_randomNumber bits stream, fun bytes _ => randomNumber_lt bits _, ?_⟩
    intro n small
    exact occurrences_randomNumber small stream
  · intro field width
    refine ⟨field.drawn_sample stream, ?_, field.samplingDistance_lt stream⟩
    intro x contained
    exact field.occurrences_sample_cases contained stream

/-- Ten bits leave six bits of two bytes free. For the field with seven elements seventeen bytes are
    drawn. -/
theorem sampled_evenly_ten_seven :
    let zeros : ByteStream := ⟨fun _ => 0, 0⟩
    let field := Parameters.seven.field
    (randomNumber 10 (zeros.startingWith [255, 255])).1 < 1024 ∧
      zeros.occurrences 2 (randomNumber 10) 1023 = 64 ∧
      (zeros.occurrences 17 field.sample (field.residue 6) = 256 ^ 17 / 7 ∨
        zeros.occurrences 17 field.sample (field.residue 6) = 256 ^ 17 / 7 + 1) ∧
      field.samplingDistance zeros < 1 / 2 ^ 128 := by
  intro zeros field
  obtain ⟨numbers, residues⟩ := sampled_evenly zeros
  obtain ⟨-, below, even⟩ := numbers 10
  obtain ⟨-, shares, near⟩ := residues field
  have width : (bitLength field.modulus + 7) / 8 + 16 = 17 := by decide
  have seven : field.modulus = 7 := rfl
  have shared := shares (field.residue 6) (field.contains_residue 6)
  rw [width, seven] at shared
  exact ⟨below [255, 255] rfl, even 1023 (by decide), shared, near⟩

end CoinSpend
