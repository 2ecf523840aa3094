import CoinSpend.Proofs.ByteForms
import CoinSpend.Proofs.ByteNumbers
import CoinSpend.Proofs.OpeningSeparation
import CoinSpend.Proofs.SpendCircuits

/-!
# Minted coins

A minted coin is one that could have been made from its two residues: its randomness is drawn with
as many bits as it may have, and reducing it does not add any. Whatever random bytes it was made
from, what is published of it is read back, opened by the coin, and the product of the last step of
its circuit, so that a spend of it passes.
-/

namespace CoinSpend

open Residue

theorem PrimeField.value_residue_le (field : PrimeField) (n : ℕ) : (field.residue n).value ≤ n :=
  Nat.mod_le n field.modulus

/-- Every challenge is answered: one of another field and zero are refused, and for all others the
    circuit is folded and passes the check. -/
structure Circuit.AnswersAll (circuit : Circuit) (field : PrimeField) : Prop where
  foreign : ∀ y, ¬field.Contains y → circuit.aggregate y = .refuse .foreign
  zero : ∀ y, field.Contains y → y.value = 0 → circuit.aggregate y = .refuse .degenerate
  nonzero : ∀ y, field.Contains y → y.value ≠ 0 →
    ∃ aggregation, circuit.aggregate y = .ok aggregation ∧ circuit.check aggregation = .ok ()

theorem Circuit.AnswersAll.verify {circuit : Circuit} {field : PrimeField}
    (answers : circuit.AnswersAll field) {y : Residue} (contained : field.Contains y)
    (nonzero : y.value ≠ 0) : circuit.verify y = .ok () := by
  obtain ⟨aggregation, folded, passed⟩ := answers.nonzero y contained nonzero
  rw [Circuit.verify, folded, Attempt.restate_ok, ok_bind, passed]
  rfl

namespace Coin

variable {p : Parameters}

theorem ofResidues_eq_ok_iff {serial randomness : Residue} {coin : Coin} :
    ofResidues p serial randomness = .ok coin ↔
      p.field.Contains serial ∧ p.field.Contains randomness ∧
        randomness.value < 2 ^ p.serialSize ∧ coin = ⟨serial, randomness⟩ := by
  have narrow : ¬p.serialSize < bitLength randomness.value ↔
      randomness.value < 2 ^ p.serialSize := by
    rw [lt_bitLength_iff, not_le]
  unfold ofResidues
  constructor
  · intro made
    split at made
    case isTrue => cases made
    case isFalse contained =>
      dsimp only at made
      split at made
      case isTrue => cases made
      case isFalse short =>
        obtain ⟨inField, inField'⟩ := not_not.mp contained
        exact ⟨inField, inField', narrow.mp short, (Except.ok.inj made).symm⟩
  · rintro ⟨inField, inField', short, rfl⟩
    rw [if_neg (not_not_intro ⟨inField, inField'⟩)]
    exact if_neg (narrow.mpr short)

/-- A minted coin is that of its residues. -/
theorem ofResidues_mint (p : Parameters) (stream : ByteStream) :
    ofResidues p (mint p stream).1.serial (mint p stream).1.randomness = .ok (mint p stream).1 := by
  refine ofResidues_eq_ok_iff.mpr ⟨rfl, rfl, ?_, rfl⟩
  have drawn := randomNumber_lt p.serialSize (p.field.sample stream).2
  exact Nat.lt_of_le_of_lt (p.field.value_residue_le _) drawn

variable {coin : Coin}

/-- The bits of a randomness that is short enough stand for it. -/
theorem bitSum_toWitness (short : coin.randomness.value < 2 ^ p.serialSize) :
    bitSum coin.toWitness.bit p.serialSize = coin.randomness.value := by
  have bits : bitSum coin.toWitness.bit p.serialSize
      = coin.randomness.value % 2 ^ p.serialSize := bitSum_testBit _ _
  rw [bits, Nat.mod_eq_of_lt short]

/-- What a coin publishes is a residue of the field, read back with the parameters. -/
theorem residueIn_publish (p : Parameters) (z : ZMod p.field.modulus) :
    Commitment.residueIn ⟨z.val⟩ p = .ok (ofZMod z) := by
  have below : ¬p.field.modulus ≤ z.val := Nat.not_le.mpr (ZMod.val_lt z)
  rw [Commitment.residueIn, if_neg below]
  exact congrArg Except.ok (PrimeField.residue_value (rfl : p.field.Contains (ofZMod z)))

theorem isOpenedBy_publish (p : Parameters) (coin : Coin) :
    Commitment.isOpenedBy ⟨(coin.commitmentClass p).val⟩ p coin.toWitness = .ok true := by
  rw [isOpenedBy_toWitness, beq_self_eq_true]

/-- The circuit of a coin, whose last product is the commitment. -/
theorem exists_circuit {layout : Layout} (accepted : Layout.ofShape p.shape = .ok layout)
    (short : coin.randomness.value < 2 ^ p.serialSize) :
    ∃ circuit, Circuit.ofWitness p (.onLayout p layout) coin.toWitness = .ok circuit ∧
      Wires.assign coin.toWitness p = .ok circuit.wires ∧
      circuit.wires.final = .ok (ofZMod (coin.commitmentClass p)) ∧
      circuit.commitment = ofZMod (coin.commitmentClass p) ∧ circuit.AnswersAll p.field := by
  have size : layout.serialSize = p.serialSize :=
    (Layout.describes_of_ofShape accepted).serialSize
  have long := layout.three_le_serialSize
  have narrow : bitLength coin.toWitness.randomness.value ≤ layout.serialSize := by
    rw [size]
    exact Nat.le_of_not_lt (mt lt_bitLength_iff.mp (Nat.not_le.mpr short))
  have last : honest layout.serialSize p.hClass (p.gClass ^ coin.toWitness.serial.value)
      coin.toWitness.bit .c (2 * layout.serialSize - 2) = coin.commitmentClass p := by
    rw [honest_final (by omega), size, bitSum_toWitness short]
    rfl
  refine ⟨_, Circuit.ofWitness_eq_ok accepted narrow, Wires.assign_eq_ok accepted narrow, ?_, rfl,
    ?_⟩
  · rw [← last]
    exact Wires.final_ofClasses _
  constructor
  case foreign =>
    intro y foreign
    exact Circuit.aggregate_foreign foreign
  case zero =>
    intro y contained zero
    exact Circuit.aggregate_zero accepted contained zero
  case nonzero =>
    intro y contained nonzero
    refine ⟨_, Circuit.aggregate_eq_ok accepted contained nonzero, ?_⟩
    refine (Circuit.check_of_relations (fun i _ => gateResidual_honest i)
      (linearRelations_honest long) _ _).trans (require_eq_ok_iff.mpr ?_)
    rw [last]
    rfl

end Coin

/-- From minting to spending, whatever the random bytes are: the minted coin is accepted as one made
    from its residues, its bits stand for its randomness, its published value survives the byte
    form, belongs to the field and is opened by the coin, is the last product of the wires and the
    commitment of the circuit, and a spend of it passes under every challenge of the field but
    zero. -/
theorem mint_publish_spend {p : Parameters} (form : HasByteForm p.field.modulus)
    {system : LinearSystem} (built : LinearSystem.ofParameters p = .ok system)
    (stream : ByteStream) :
    let coin := (Coin.mint p stream).1
    Coin.ofResidues p coin.serial coin.randomness = .ok coin ∧
    bitSum coin.toWitness.bit p.serialSize = coin.randomness.value ∧
    ∃ published circuit value,
      coin.publish p = .ok published ∧
      Commitment.decode published.encode = .ok published ∧
      published.residueIn p = .ok value ∧
      value = p.field.residue (p.g.value ^ coin.serial.value * p.h.value ^ coin.randomness.value) ∧
      Circuit.ofWitness p system coin.toWitness = .ok circuit ∧
      Wires.assign coin.toWitness p = .ok circuit.wires ∧
      circuit.wires.final = .ok value ∧
      circuit.commitment = value ∧
      published.isOpenedBy p coin.toWitness = .ok true ∧
      ∀ y : Residue, p.field.Contains y → y.value ≠ 0 →
        Spend.check p system ⟨coin.toWitness, y⟩ = .ok () := by
  obtain ⟨layout, accepted, rfl⟩ := LinearSystem.ofParameters_eq_ok_iff.mp built
  intro coin
  have own : Coin.ofResidues p coin.serial coin.randomness = .ok coin :=
    Coin.ofResidues_mint p stream
  obtain ⟨-, -, short, -⟩ := Coin.ofResidues_eq_ok_iff.mp own
  obtain ⟨circuit, made, assigned, final, commitment, answers⟩ :=
    Coin.exists_circuit accepted short
  have below : (coin.commitmentClass p).val ≤ p.field.modulus := Nat.le_of_lt (ZMod.val_lt _)
  have survives := Commitment.lawfulForm.roundTrip ⟨(coin.commitmentClass p).val⟩
    (form.of_le below) []
  rw [List.append_nil] at survives
  refine ⟨own, Coin.bitSum_toWitness short, _, circuit, _, Coin.publish_eq_ok p coin, survives,
    Coin.residueIn_publish p _, ?_, made, assigned, final, commitment,
    Coin.isOpenedBy_publish p coin, ?_⟩
  · exact (p.residue_powers _ _).symm
  · intro y contained nonzero
    rw [Spend.check, made, Attempt.restate_ok, ok_bind]
    exact answers.verify contained nonzero

/-- Of every byte 253 the three lowest bits are kept, so that the randomness is five. -/
theorem mint_publish_spend_seven :
    let stream : ByteStream := ⟨fun _ => 253, 0⟩
    let five := Parameters.seven.field.residue 5
    (Coin.mint .seven stream).1 = ⟨five, five⟩ ∧
      (Coin.mk five five).publish .seven = .ok ⟨1⟩ ∧
      Commitment.decode (Commitment.encode ⟨1⟩) = .ok ⟨1⟩ ∧
      Spend.check .seven (.onLayout .seven .seven)
        ⟨.ofOpening five five, Parameters.seven.field.residue 4⟩ = .ok () := by
  intro stream five
  have form : HasByteForm Parameters.seven.field.modulus := by
    unfold HasByteForm
    decide
  have minted : (Coin.mint .seven stream).1 = ⟨five, five⟩ := by decide +kernel
  have published : (Coin.mk five five).publish .seven = .ok ⟨1⟩ := by decide +kernel
  obtain ⟨-, -, c, _, _, own, survives, -, -, -, -, -, -, -, spends⟩ :=
    mint_publish_spend form ofParameters_seven stream
  rw [minted] at own spends
  have one : c = ⟨1⟩ := Except.ok.inj (own.symm.trans published)
  rw [one] at survives
  exact ⟨minted, published, survives, spends _ rfl (by decide)⟩

end CoinSpend
