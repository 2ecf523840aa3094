import CoinSpend.Coin
import CoinSpend.Proofs.LinearRelations
import Mathlib.FieldTheory.Finite.Basic

/-!
# Extraction of an opening

Wires that pass the checks of the gates, the commitment and the constraints hold what is assigned
for some bits, and so they contain an opening of the commitment.
-/

namespace CoinSpend

open Residue

/-- The gates multiply, the last of them opens the commitment, and the checked constraints hold. -/
structure BoundSystem.Accepts (bound : BoundSystem) (wires : Wires) (commitment : Residue) :
    Prop where
  gates : wires.checkGates = .ok ()
  commitment : wires.checkCommitment commitment = .ok ()
  constraints : bound.checkConstraints wires = .ok ()

/-- Wires that hold what is assigned for a serial number and bits. The gates that are not in use
    only have to multiply. -/
structure Wires.AssignedFor (p : Parameters) (serial : Residue) (bit : ℕ → Bool) (wires : Wires) :
    Prop where
  used : ∀ randomness : Residue, bitLength randomness.value ≤ wires.layout.serialSize →
    ∃ assigned, Wires.assign ⟨serial, randomness, bit⟩ p = .ok assigned ∧
      ∀ i < wires.layout.usedCount,
        wires.gates.get? (wires.layout.cell i) = assigned.gates.get? (wires.layout.cell i)
  unused : ∀ i, wires.layout.usedCount ≤ i → i < wires.layout.capacity →
    ∃ gate, wires.gates.get? (wires.layout.cell i) = some gate ∧ gate.a.mul gate.b = .ok gate.c

section

variable {p : Parameters} {layout : Layout} {serial commitment : Residue} {bit : ℕ → Bool}
  {V : Wire → ℕ → ZMod p.field.modulus}

theorem accepts_ofClasses :
    ((LinearSystem.onLayout p layout).bind serial).Accepts (Wires.ofClasses layout V) commitment
      ↔ (∀ i < layout.rows * layout.columns, gateResidual V i = 0) ∧
        ofZMod (V .c (2 * layout.serialSize - 2)) = commitment ∧
        LinearRelations layout.serialSize p.hClass (p.gClass ^ serial.value) V := by
  have fits := LinearSystem.fits_onLayout p layout
  have power := LinearSystem.serialPower_bind p layout serial
  have gates : (Wires.ofClasses layout V).checkGates = .ok ()
      ↔ ∀ i < layout.rows * layout.columns, gateResidual V i = 0 := by
    rw [Wires.checkGates_ofClasses]
    exact forM_require_eq_ok_iff
  have final : (Wires.ofClasses layout V).checkCommitment commitment = .ok ()
      ↔ ofZMod (V .c (2 * layout.serialSize - 2)) = commitment := by
    rw [Wires.checkCommitment_ofClasses]
    exact require_eq_ok_iff
  have constraints : ((LinearSystem.onLayout p layout).bind serial).checkConstraints
        (Wires.ofClasses layout V) = .ok ()
      ↔ LinearRelations layout.serialSize p.hClass (p.gClass ^ serial.value) V := by
    have checks := BoundSystem.checkConstraints_ofClasses power fits V
    rw [← LinearSystem.residuals_eq_zero_iff]
    exact (iff_of_eq (congrArg (· = .ok ()) checks)).trans forM_require_eq_ok_iff
  rw [← gates, ← final, ← constraints]
  constructor
  · rintro ⟨first, second, third⟩
    exact ⟨first, second, third⟩
  · rintro ⟨first, second, third⟩
    exact ⟨first, second, third⟩

theorem assignedFor_ofClasses (accepted : Layout.ofShape p.shape = .ok layout) :
    (Wires.ofClasses layout V).AssignedFor p serial bit
      ↔ (∀ wire, ∀ i < 2 * layout.serialSize - 1,
          V wire i = honest layout.serialSize p.hClass (p.gClass ^ serial.value) bit wire i) ∧
        ∀ i, 2 * layout.serialSize - 1 ≤ i → i < layout.rows * layout.columns →
          gateResidual V i = 0 := by
  have inGrid {i : ℕ} (below : i < 2 * layout.serialSize - 1) : i < layout.rows * layout.columns :=
    Nat.lt_of_lt_of_le below layout.usedCount_le
  constructor
  · rintro ⟨used, unused⟩
    refine ⟨?_, ?_⟩
    · intro wire i below
      obtain ⟨assigned, answer, same⟩ := used p.field.zero (Nat.zero_le _)
      rw [Wires.assign_eq_ok accepted (Nat.zero_le _), Except.ok.injEq] at answer
      subst answer
      have here := (Wires.get?_cell V (inGrid below)).symm.trans
        ((same i below).trans (Wires.get?_cell _ (inGrid below)))
      exact classTriple_inj.mp (Option.some.inj here) wire
    · intro i beyond below
      obtain ⟨gate, here, multiplies⟩ := unused i beyond (by rwa [Layout.capacity, mul_comm])
      obtain rfl := Option.some.inj ((Wires.get?_cell V below).symm.trans here)
      simpa [classTriple, gateResidual, sub_eq_zero] using multiplies
  · rintro ⟨used, unused⟩
    refine ⟨?_, ?_⟩
    · intro randomness narrow
      refine ⟨_, Wires.assign_eq_ok accepted narrow, ?_⟩
      intro i below
      have same : classTriple (fun wire => V wire i) = classTriple fun wire =>
          honest layout.serialSize p.hClass (p.gClass ^ serial.value) bit wire i :=
        classTriple_inj.mpr fun wire => used wire i below
      exact (Wires.get?_cell V (inGrid below)).trans
        ((congrArg some same).trans (Wires.get?_cell _ (inGrid below)).symm)
    · intro i beyond below
      have inGrid : i < layout.rows * layout.columns := by
        rw [mul_comm]
        exact below
      have residual := unused i beyond inGrid
      refine ⟨_, Wires.get?_cell V inGrid, ?_⟩
      simpa [classTriple, gateResidual, sub_eq_zero] using residual

/-- Wires of classes over a field pass the checks exactly if they are assigned for bits whose
    number the commitment commits to. -/
theorem accepts_ofClasses_iff_assignedFor [Fact p.field.modulus.Prime]
    (accepted : Layout.ofShape p.shape = .ok layout) :
    ((LinearSystem.onLayout p layout).bind serial).Accepts (Wires.ofClasses layout V) commitment
      ↔ ∃ bit : ℕ → Bool, (Wires.ofClasses layout V).AssignedFor p serial bit ∧
        commitment = p.field.residue (p.g.value ^ serial.value
          * p.h.value ^ bitSum bit layout.serialSize) := by
  have long := layout.three_le_serialSize
  have used := layout.usedCount_le
  simp only [p.residue_powers, assignedFor_ofClasses accepted, accepts_ofClasses]
  constructor
  · rintro ⟨gates, final, relations⟩
    obtain ⟨bit, assigned⟩ := relations.exists_bits long
      fun i below => gates i (Nat.lt_of_lt_of_le below used)
    refine ⟨bit, ⟨assigned, fun i _ below => gates i below⟩, ?_⟩
    rw [← final, assigned .c _ (by omega), honest_final (by omega)]
  · rintro ⟨bit, ⟨assigned, unused⟩, opened⟩
    refine ⟨?_, ?_, ?_⟩
    · intro i below
      by_cases inUse : i < 2 * layout.serialSize - 1
      · have gate : gateResidual
            (honest layout.serialSize p.hClass (p.gClass ^ serial.value) bit) i = 0 :=
          gateResidual_honest i
        rwa [gateResidual, ← assigned .a i inUse, ← assigned .b i inUse, ← assigned .c i inUse]
          at gate
      · exact unused i (Nat.le_of_not_lt inUse) below
    · rw [opened, assigned .c _ (by omega), honest_final (by omega)]
    · exact (linearRelations_honest long).of_agree long assigned

/-- A power of the second generator is one with an exponent that is a residue of the field, and
    that has no more bits. -/
theorem exists_randomness (prime : p.field.modulus.Prime) {n width : ℕ} (narrow : n < 2 ^ width) :
    ∃ r : Residue, p.field.Contains r ∧ bitLength r.value ≤ width ∧
      p.hClass ^ r.value = p.hClass ^ n := by
  have : Fact p.field.modulus.Prime := ⟨prime⟩
  have positive : 0 < p.field.modulus - 1 := by
    have := prime.two_le
    omega
  have small : n % (p.field.modulus - 1) < p.field.modulus - 1 := Nat.mod_lt _ positive
  have value : (p.field.residue (n % (p.field.modulus - 1))).value
      = n % (p.field.modulus - 1) :=
    Nat.mod_eq_of_lt (by omega)
  refine ⟨p.field.residue (n % (p.field.modulus - 1)), p.field.contains_residue _, ?_, ?_⟩
  · rw [value]
    by_contra wide
    have large := lt_bitLength_iff.mp (Nat.lt_of_not_le wide)
    have le := Nat.mod_le n (p.field.modulus - 1)
    omega
  · rw [value]
    -- Powers with exponents that differ by a multiple of the order of the group are equal.
    conv_rhs => rw [← Nat.div_add_mod n (p.field.modulus - 1)]
    rw [pow_add, pow_mul, ZMod.pow_card_sub_one_eq_one p.hClass_ne_zero, one_pow, one_mul]

end

/-- Over a field, the wires that pass the checks are those that hold what is assigned for some
    bits, where the commitment is the one to the number that the bits stand for. Whoever has such
    wires has a coin with this serial number and this commitment. -/
theorem accepts_iff_assignedFor {p : Parameters} (prime : p.field.modulus.Prime)
    {system : LinearSystem} (built : LinearSystem.ofParameters p = .ok system)
    {serial : Residue} (serialIn : p.field.Contains serial) (commitment : Residue)
    {wires : Wires} (sameLayout : wires.layout = system.layout) (ofField : wires.Over p.field) :
    ((system.bind serial).Accepts wires commitment ↔
      ∃ bit : ℕ → Bool, wires.AssignedFor p serial bit ∧
        commitment = p.field.residue (p.g.value ^ serial.value
          * p.h.value ^ bitSum bit system.layout.serialSize)) ∧
    ((system.bind serial).Accepts wires commitment →
      ∃ randomness, Coin.ofResidues p serial randomness = .ok ⟨serial, randomness⟩ ∧
        p.commit serial randomness = .ok commitment) := by
  have : Fact p.field.modulus.Prime := ⟨prime⟩
  obtain ⟨layout, V, accepted, rfl, rfl⟩ :=
    LinearSystem.exists_classes_of_built built sameLayout ofField
  have described := Layout.describes_of_ofShape accepted
  refine ⟨accepts_ofClasses_iff_assignedFor accepted, ?_⟩
  intro accepts
  obtain ⟨bit, -, opened⟩ := (accepts_ofClasses_iff_assignedFor accepted).mp accepts
  obtain ⟨randomness, contained, narrow, power⟩ :=
    exists_randomness prime (bitSum_lt bit layout.serialSize)
  refine ⟨randomness, ?_, ?_⟩
  · have notWide : ¬p.serialSize < bitLength randomness.value := by
      rw [Parameters.serialSize, ← described.serialSize]
      omega
    rw [Coin.ofResidues, if_neg (not_not_intro ⟨serialIn, contained⟩)]
    exact if_neg notWide
  · rw [p.commit_eq_ok, power, opened, p.residue_powers]

/-- Parameters over the field with seven elements, for three bits in two rows of three cells. -/
def Parameters.seven : Parameters where
  field := ⟨7, by decide, by decide⟩
  g := ⟨7, 3, by decide⟩
  h := ⟨7, 5, by decide⟩
  shape := ⟨3, 2, 3, 1⟩
  isGenerator_g := ⟨rfl, by decide⟩
  isGenerator_h := ⟨rfl, by decide⟩
  usable_shape := by decide

/-- The layout for the shape of `Parameters.seven`. -/
def Layout.seven : Layout where
  columns := 3
  rows := 2
  serialSize := 3
  minimum_le_serialSize := by decide
  wires_le_cells := by decide
  powers_lt_limit := by decide

theorem ofParameters_seven :
    LinearSystem.ofParameters .seven = .ok (.onLayout .seven .seven) :=
  LinearSystem.ofParameters_eq_ok_iff.mpr ⟨.seven, by decide, rfl⟩

/-- The classes of the wires for three set bits and the serial number two. -/
def honestSeven : Wire → ℕ → ZMod Parameters.seven.field.modulus :=
  honest 3 Parameters.seven.hClass (Parameters.seven.gClass ^ 2) fun _ => true

/-- The wires that are assigned when all three bits are set pass the checks, and the commitment
    they contain is opened by a randomness of the field. -/
theorem accepts_iff_assignedFor_seven :
    ∃ wires : Wires, wires.layout = Layout.seven ∧ wires.Over Parameters.seven.field ∧
      ((LinearSystem.onLayout .seven .seven).bind (Parameters.seven.field.residue 2)).Accepts wires
        (Parameters.seven.field.residue 3) ∧
      ∃ randomness, Coin.ofResidues .seven (Parameters.seven.field.residue 2) randomness
          = .ok ⟨Parameters.seven.field.residue 2, randomness⟩ ∧
        Parameters.seven.commit (Parameters.seven.field.residue 2) randomness
          = .ok (Parameters.seven.field.residue 3) := by
  have prime : Nat.Prime Parameters.seven.field.modulus := Nat.prime_seven
  have serialIn := Parameters.seven.field.contains_residue 2
  have ofField : (Wires.ofClasses Layout.seven honestSeven).Over Parameters.seven.field :=
    Wires.over_ofClasses honestSeven
  have last : honestSeven .c (2 * 3 - 2) = Parameters.seven.gClass ^ 2
      * Parameters.seven.hClass ^ bitSum (fun _ => true) 3 := honest_final (by decide)
  have final : ofZMod (honestSeven .c (2 * 3 - 2)) = Parameters.seven.field.residue 3 := by
    rw [last]
    decide
  have accepts : ((LinearSystem.onLayout .seven .seven).bind
      (Parameters.seven.field.residue 2)).Accepts (Wires.ofClasses Layout.seven honestSeven)
      (Parameters.seven.field.residue 3) :=
    accepts_ofClasses.mpr
      ⟨fun i _ => gateResidual_honest i, final, linearRelations_honest (Nat.le_refl 3)⟩
  exact ⟨_, rfl, ofField, accepts,
    (accepts_iff_assignedFor prime ofParameters_seven serialIn _ rfl ofField).2 accepts⟩

end CoinSpend
