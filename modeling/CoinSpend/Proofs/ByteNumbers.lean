import CoinSpend.PrimeField.Sampling
import Mathlib.Data.Nat.ModEq
import Mathlib.Tactic.IntervalCases
import Mathlib.Tactic.Ring

/-!
# Numbers made of bytes

Bytes and the numbers below a power of 256 correspond to each other. A random number is that of the
bytes drawn for it, modulo a power of two: clearing the most significant bits of the last byte is
all that is needed, because no other byte is beyond that power.
-/

namespace CoinSpend

/-! ## Little-endian numbers -/

theorem littleEndian_lt (bytes : List UInt8) : littleEndian bytes < 256 ^ bytes.length := by
  induction bytes with
  | nil => simp [littleEndian_nil]
  | cons byte rest ih =>
    have small := byte.toNat_lt
    rw [littleEndian_cons, List.length_cons, pow_succ]
    omega

theorem littleEndian_append (low high : List UInt8) :
    littleEndian (low ++ high) = littleEndian low + 256 ^ low.length * littleEndian high := by
  induction low with
  | nil => simp [littleEndian_nil]
  | cons byte rest ih =>
    rw [List.cons_append, littleEndian_cons, ih, littleEndian_cons, List.length_cons, pow_succ]
    ring

theorem littleEndian_toLittleEndian (width n : ℕ) :
    littleEndian (toLittleEndian width n) = n % 256 ^ width := by
  induction width generalizing n with
  | zero => simp [toLittleEndian_zero, littleEndian_nil, Nat.mod_one]
  | succ width ih =>
    rw [toLittleEndian_succ, littleEndian_cons, ih, pow_succ', Nat.mod_mul]
    rfl

theorem toLittleEndian_littleEndian (bytes : List UInt8) :
    toLittleEndian bytes.length (littleEndian bytes) = bytes := by
  induction bytes with
  | nil => rfl
  | cons byte rest ih =>
    have small := byte.toNat_lt
    have low : UInt8.ofNat (byte.toNat + 256 * littleEndian rest) = byte := by
      apply UInt8.toNat_inj.mp
      rw [UInt8.toNat_ofNat']
      omega
    have high : (byte.toNat + 256 * littleEndian rest) / 256 = littleEndian rest := by
      omega
    rw [List.length_cons, littleEndian_cons, toLittleEndian_succ, low, high, ih]

/-! ## Random numbers -/

theorem clearTop_append (excess : ℕ) (front : List UInt8) (top : UInt8) :
    clearTop excess (front ++ [top])
      = front ++ [top &&& ((255 : UInt8) >>> UInt8.ofNat excess)] := by
  rw [clearTop, List.modify_eq_take_cons_drop (by simp)]
  simp

/-- Masking a byte keeps its lowest bits. -/
theorem toNat_and_mask (top : UInt8) {excess : ℕ} (h : excess < 8) :
    (top &&& ((255 : UInt8) >>> UInt8.ofNat excess)).toNat = top.toNat % 2 ^ (8 - excess) := by
  have mask : ((255 : UInt8) >>> UInt8.ofNat excess).toNat = 2 ^ (8 - excess) - 1 := by
    interval_cases excess <;> rfl
  rw [UInt8.toNat_and, mask, Nat.and_two_pow_sub_one_eq_mod]

/-- The number of just enough bytes is theirs modulo the power of two. -/
theorem numberOfBytes_eq {bits : ℕ} {bytes : List UInt8} (enough : bytes.length = bytesFor bits) :
    numberOfBytes bits bytes = littleEndian bytes % 2 ^ bits := by
  unfold bytesFor at enough
  rcases List.eq_nil_or_concat bytes with rfl | ⟨front, top, rfl⟩
  · rw [numberOfBytes]
    simp [clearTop, littleEndian_nil]
  · rw [List.concat_eq_append] at enough ⊢
    rw [List.length_append, List.length_singleton] at enough
    obtain ⟨excess, width⟩ : ∃ excess, 8 * (front ++ [top]).length - bits = excess := ⟨_, rfl⟩
    rw [List.length_append, List.length_singleton] at width
    have low := littleEndian_lt front
    have power : 2 ^ bits = 256 ^ front.length * 2 ^ (8 - excess) := by
      rw [show (256 : ℕ) = 2 ^ 8 by rfl, ← pow_mul, ← pow_add]
      congr 1
      omega
    have single (byte : UInt8) : littleEndian [byte] = byte.toNat := by
      rw [littleEndian_cons, littleEndian_nil, Nat.mul_zero, Nat.add_zero]
    rw [numberOfBytes, List.length_append, List.length_singleton, width, clearTop_append,
      littleEndian_append, littleEndian_append, single, single, toNat_and_mask top (by omega),
      power, Nat.mod_mul, Nat.add_mul_mod_self_left, Nat.mod_eq_of_lt low,
      Nat.add_mul_div_left _ _ (by positivity), Nat.div_eq_of_lt low, Nat.zero_add]

theorem length_draw (stream : ByteStream) (count : ℕ) : (stream.draw count).1.length = count := by
  simp [ByteStream.draw]

theorem randomNumber_lt (bits : ℕ) (stream : ByteStream) :
    (randomNumber bits stream).1 < 2 ^ bits := by
  have drawn : (randomNumber bits stream).1
      = numberOfBytes bits (stream.draw (bytesFor bits)).1 := rfl
  rw [drawn, numberOfBytes_eq (length_draw stream _)]
  exact Nat.mod_lt _ (by positivity)

end CoinSpend
