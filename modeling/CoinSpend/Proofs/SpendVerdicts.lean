import CoinSpend.Proofs.SpendCircuits
import CoinSpend.Proofs.Extraction

/-!
# The verdict on a spend

What the check of a spend comes to, without circuits: only the first generator to the serial
number times the second one to the number that the claimed bits stand for matters, once witness and
challenge are admitted.
-/

namespace CoinSpend

open Residue

namespace Spend

/-- The verdict on a spend under the parameters `p`, with a system that was built for `p₀`. -/
def verdict (p₀ p : Parameters) (spend : Spend) : Attempt SpendError Unit :=
  let randomness := spend.witness.randomness.value
  let committed (n : ℕ) := p.g.value ^ spend.witness.serial.value * p.h.value ^ n
  if p ≠ p₀ then .refuse (.circuit .parameterMismatch)
  else if 2 ^ p.serialSize ≤ randomness then
    .refuse (.circuit (.wires (.tooWide (bitLength randomness) p.serialSize)))
  else if ¬p.field.Contains spend.challenge then .refuse (.challenge .foreign)
  else if spend.challenge.value = 0 then .refuse (.challenge .degenerate)
  else if committed (bitSum spend.witness.bit p.serialSize) ≡ committed randomness
      [MOD p.field.modulus] then .ok ()
  else
    .refuse (.check (.commitment (.ofPosition p.shape.columns.toNat (2 * p.serialSize - 2))))

/-- Products of powers of the generators are congruent exactly when their classes are equal. -/
theorem committed_modEq_iff (p : Parameters) (serial a b : ℕ) :
    p.g.value ^ serial * p.h.value ^ a ≡ p.g.value ^ serial * p.h.value ^ b [MOD p.field.modulus]
      ↔ ofZMod (p.gClass ^ serial * p.hClass ^ a) = ofZMod (p.gClass ^ serial * p.hClass ^ b) := by
  have cast (n : ℕ) : ((p.g.value ^ serial * p.h.value ^ n : ℕ) : ZMod p.field.modulus)
      = p.gClass ^ serial * p.hClass ^ n := by
    rw [Nat.cast_mul, Nat.cast_pow, Nat.cast_pow]
    rfl
  rw [← ZMod.natCast_eq_natCast_iff, cast, cast, ofZMod_inj]

/-- The verdict for the parameters that the system was built for. -/
theorem check_onLayout {p : Parameters} {layout : Layout}
    (accepted : Layout.ofShape p.shape = .ok layout) (spend : Spend) :
    check p (.onLayout p layout) spend = spend.verdict p p := by
  have described := Layout.describes_of_ofShape accepted
  have size : layout.serialSize = p.serialSize := described.serialSize
  have long := layout.three_le_serialSize
  obtain ⟨w, y⟩ := spend
  -- Witness and challenge are admitted in the order of the cases of the verdict.
  rw [check, verdict, if_neg (not_not_intro rfl)]
  by_cases wide : 2 ^ p.serialSize ≤ w.randomness.value
  · rw [if_pos wide, Circuit.ofWitness_too_wide accepted (lt_bitLength_iff.mpr (size ▸ wide)), size]
    rfl
  have narrow : bitLength w.randomness.value ≤ layout.serialSize := by
    rw [size]
    exact Nat.le_of_not_lt (mt lt_bitLength_iff.mp wide)
  rw [if_neg wide, Circuit.ofWitness_eq_ok accepted narrow, Attempt.restate_ok, ok_bind,
    Circuit.verify]
  dsimp only
  by_cases contained : p.field.Contains y
  swap
  · rw [if_pos contained, Circuit.aggregate_foreign contained]
    rfl
  rw [if_neg (not_not_intro contained)]
  by_cases zero : y.value = 0
  · rw [if_pos zero, Circuit.aggregate_zero accepted contained zero]
    rfl
  rw [if_neg zero, Circuit.aggregate_eq_ok accepted contained zero, Attempt.restate_ok, ok_bind,
    Circuit.check_of_relations (fun i _ => gateResidual_honest i) (linearRelations_honest long),
    honest_final (by omega), size]
  by_cases opened : p.g.value ^ w.serial.value * p.h.value ^ bitSum w.bit p.serialSize
      ≡ p.g.value ^ w.serial.value * p.h.value ^ w.randomness.value [MOD p.field.modulus]
  · rw [if_pos opened, require_eq_ok_iff.mpr ((committed_modEq_iff p _ _ _).mp opened)]
    rfl
  · rw [if_neg opened, require_of_not (mt (committed_modEq_iff p _ _ _).mpr opened),
      described.lastCell]
    rfl

/-- A spend is checked without a fault, and only what the verdict names can be wrong with it. A
    witness with the true bits of a short randomness passes under every challenge of the field but
    zero. -/
theorem check_eq_verdict {p₀ : Parameters} {system : LinearSystem}
    (built : LinearSystem.ofParameters p₀ = .ok system) (p : Parameters) (spend : Spend) :
    check p system spend = spend.verdict p₀ p ∧
      (p = p₀ → spend.witness.randomness.value < 2 ^ p.serialSize →
        (∀ i < p.serialSize, spend.witness.bit i = spend.witness.randomness.value.testBit i) →
        p.field.Contains spend.challenge → spend.challenge.value ≠ 0 →
        check p system spend = .ok ()) := by
  obtain ⟨layout, accepted, rfl⟩ := LinearSystem.ofParameters_eq_ok_iff.mp built
  have checked : check p (.onLayout p₀ layout) spend = spend.verdict p₀ p := by
    by_cases same : p = p₀
    · subst same
      exact check_onLayout accepted spend
    · rw [check, Circuit.ofWitness_mismatch same, verdict, if_pos same]
      rfl
  refine ⟨checked, ?_⟩
  intro same narrow trueBits contained nonzero
  have claimed : bitSum spend.witness.bit p.serialSize = spend.witness.randomness.value := by
    rw [bitSum_congr trueBits, bitSum_testBit, Nat.mod_eq_of_lt narrow]
  rw [checked, verdict, if_neg (not_not_intro same), if_neg (Nat.not_le.mpr narrow),
    if_neg (not_not_intro contained), if_neg nonzero, claimed]
  exact if_pos (Nat.ModEq.refl _)

/-- The same opening with its true bits, and with all bits claimed to be set. -/
theorem check_eq_verdict_seven :
    let serial := Parameters.seven.field.residue 2
    let randomness := Parameters.seven.field.residue 5
    let challenge := Parameters.seven.field.residue 4
    check .seven (.onLayout .seven .seven) ⟨.ofOpening serial randomness, challenge⟩ = .ok () ∧
      check .seven (.onLayout .seven .seven) ⟨⟨serial, randomness, fun _ => true⟩, challenge⟩
        = .refuse (.check (.commitment ⟨1, 1⟩)) := by
  refine ⟨?_, ?_⟩
  · refine (check_eq_verdict ofParameters_seven .seven _).2 rfl (by decide) ?_ rfl (by decide)
    intro i _
    rfl
  · exact (check_eq_verdict ofParameters_seven .seven _).1.trans rfl

end Spend

end CoinSpend
