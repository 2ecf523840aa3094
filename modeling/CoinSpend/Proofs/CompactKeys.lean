import CoinSpend.Proofs.Extraction
import CoinSpend.Proofs.SpendCircuits
import Mathlib.Data.Nat.Digits.Defs

/-!
# Compact keys

Parameters in a byte form that is shorter than the one they are exchanged in: a word takes as many
bytes as it has digits to base 128, and a number as many words as it has digits to base `2 ^ 32`,
preceded by how many they are. A word and a number show where they end, so that different
parameters have different keys.
-/

namespace CoinSpend

/-- The digits of a number to base 128, least significant first; all but the last one are marked. -/
def compactWord (n : ℕ) : List UInt8 :=
  if n < 128 then [UInt8.ofNat n] else UInt8.ofNat (n % 128 + 128) :: compactWord (n / 128)
termination_by n
decreasing_by omega

theorem compactWord_of_lt {n : ℕ} (small : n < 128) : compactWord n = [UInt8.ofNat n] := by
  rw [compactWord, if_pos small]

theorem compactWord_of_le {n : ℕ} (large : 128 ≤ n) :
    compactWord n = UInt8.ofNat (n % 128 + 128) :: compactWord (n / 128) := by
  rw [compactWord, if_neg (Nat.not_lt.mpr large)]

/-- The first unmarked digit ends a word. -/
theorem compactWord_append_inj {m n : ℕ} {s t : List UInt8}
    (same : compactWord m ++ s = compactWord n ++ t) : m = n ∧ s = t := by
  have byte {a b : ℕ} (bytes : UInt8.ofNat a = UInt8.ofNat b) (a_lt : a < 256) (b_lt : b < 256) :
      a = b := by
    have values := congrArg UInt8.toNat bytes
    rwa [UInt8.toNat_ofNat_of_lt' a_lt, UInt8.toNat_ofNat_of_lt' b_lt] at values
  induction m using compactWord.induct generalizing n with
  | case1 m small =>
    rw [compactWord_of_lt small] at same
    rcases Nat.lt_or_ge n 128 with small' | large
    · rw [compactWord_of_lt small'] at same
      obtain ⟨first, rest⟩ := List.cons.inj same
      exact ⟨byte first (by omega) (by omega), rest⟩
    · rw [compactWord_of_le large] at same
      have first := byte (List.cons.inj same).1 (by omega) (by omega)
      omega
  | case2 m large ih =>
    rw [compactWord_of_le (Nat.le_of_not_lt large)] at same
    rcases Nat.lt_or_ge n 128 with small | large'
    · rw [compactWord_of_lt small] at same
      have first := byte (List.cons.inj same).1 (by omega) (by omega)
      omega
    · rw [compactWord_of_le large'] at same
      obtain ⟨first, rest⟩ := List.cons.inj same
      have low := byte first (by omega) (by omega)
      obtain ⟨high, rest⟩ := ih rest
      exact ⟨by omega, rest⟩

/-- The number of digits of a number to base `2 ^ 32`, followed by the digits. -/
def compactNumber (n : ℕ) : List UInt8 :=
  compactWord (Nat.digits (2 ^ 32) n).length ++ (Nat.digits (2 ^ 32) n).flatMap compactWord

theorem flatMap_compactWord_append_inj {l l' : List ℕ} {s t : List UInt8}
    (length : l.length = l'.length)
    (same : l.flatMap compactWord ++ s = l'.flatMap compactWord ++ t) : l = l' ∧ s = t := by
  induction l generalizing l' with
  | nil =>
    obtain rfl := List.length_eq_zero_iff.mp length.symm
    exact ⟨rfl, same⟩
  | cons n l ih =>
    cases l' with
    | nil => cases length
    | cons n' l' =>
      rw [List.flatMap_cons, List.flatMap_cons, List.append_assoc, List.append_assoc] at same
      obtain ⟨rfl, tail⟩ := compactWord_append_inj same
      obtain ⟨rfl, rest⟩ := ih (Nat.succ.inj length) tail
      exact ⟨rfl, rest⟩

theorem compactNumber_append_inj {m n : ℕ} {s t : List UInt8}
    (same : compactNumber m ++ s = compactNumber n ++ t) : m = n ∧ s = t := by
  unfold compactNumber at same
  rw [List.append_assoc, List.append_assoc] at same
  obtain ⟨length, rest⟩ := compactWord_append_inj same
  obtain ⟨digits, rest⟩ := flatMap_compactWord_append_inj length rest
  exact ⟨Nat.digits_inj_iff.mp digits, rest⟩

theorem Residue.eq_of_value {x y : Residue} (modulus : x.modulus = y.modulus)
    (value : x.value = y.value) : x = y := by
  cases x
  cases y
  cases modulus
  cases value
  rfl

theorem Shape.eq_of_toNat {shape shape' : Shape}
    (columns : shape.columns.toNat = shape'.columns.toNat)
    (rows : shape.rows.toNat = shape'.rows.toNat)
    (serialSize : shape.serialSize.toNat = shape'.serialSize.toNat)
    (pads : shape.pads.toNat = shape'.pads.toNat) : shape = shape' := by
  cases shape
  cases shape'
  rw [Shape.mk.injEq]
  exact ⟨UInt64.toNat_inj.mp columns, UInt64.toNat_inj.mp rows, UInt64.toNat_inj.mp serialSize,
    UInt64.toNat_inj.mp pads⟩

namespace Parameters

/-- The modulus, the generators and the shape in a compact form. -/
def compactKey (p : Parameters) : List UInt8 :=
  compactNumber p.field.modulus ++ (compactNumber p.g.value ++ (compactNumber p.h.value ++
    (compactWord p.shape.columns.toNat ++ (compactWord p.shape.rows.toNat ++
      (compactWord p.shape.serialSize.toNat ++ compactWord p.shape.pads.toNat)))))

theorem compactKey_injective : compactKey.Injective := by
  intro p p' same
  obtain ⟨modulus, same⟩ := compactNumber_append_inj same
  obtain ⟨value_g, same⟩ := compactNumber_append_inj same
  obtain ⟨value_h, same⟩ := compactNumber_append_inj same
  obtain ⟨columns, same⟩ := compactWord_append_inj same
  obtain ⟨rows, same⟩ := compactWord_append_inj same
  obtain ⟨serialSize, same⟩ := compactWord_append_inj same
  obtain ⟨pads, -⟩ := compactWord_append_inj (congrArg (fun bytes => bytes ++ []) same)
  have shape : p.shape = p'.shape := Shape.eq_of_toNat columns rows serialSize pads
  have g : p.g = p'.g :=
    Residue.eq_of_value (p.isGenerator_g.1.trans (modulus.trans p'.isGenerator_g.1.symm)) value_g
  have h : p.h = p'.h :=
    Residue.eq_of_value (p.isGenerator_h.1.trans (modulus.trans p'.isGenerator_h.1.symm)) value_h
  -- A system compares all that is left.
  have matched : (LinearSystem.onLayout p .seven).Matches p' := ⟨shape, g, h⟩
  exact (LinearSystem.matches_onLayout_iff.mp matched).symm

end Parameters

end CoinSpend
