import CoinSpend.Proofs.SpendRelations

/-!
# The wires of a list of bits

The classes that are assigned to the wires for given bits, in closed form: step `k` holds the
power of `h` by the number that the bits `0` to `k` stand for. They satisfy every relation of the
circuit, whichever the bits are and also over a ring that is not a field.
-/

namespace CoinSpend

open Residue

section

variable {q : ℕ}

/-- The gate of a bit. -/
def bitClasses (q : ℕ) (bit : Bool) : Wire → ZMod q
  | .a => bit.toNat
  | .b => bit.toNat - 1
  | .c => 0

/-- The power of `h` that bit `k` selects. -/
def selected (h : ZMod q) (bit : ℕ → Bool) (k : ℕ) : ZMod q :=
  h ^ ((bit k).toNat * 2 ^ k)

/-- The first factor of step `k` out of `size - 1` steps. -/
def stepLeft (size : ℕ) (h G : ZMod q) (bit : ℕ → Bool) (k : ℕ) : ZMod q :=
  h ^ bitSum bit (k + 1) * if k + 2 = size then G else 1

/-- The gate of step `k`. -/
def stepClasses (size : ℕ) (h G : ZMod q) (bit : ℕ → Bool) (k : ℕ) : Wire → ZMod q
  | .a => stepLeft size h G bit k
  | .b => selected h bit (k + 1)
  | .c => stepLeft size h G bit k * selected h bit (k + 1)

/-- The classes of all wires for `size` bits, where `G` is the class of the serial power. -/
def honest (size : ℕ) (h G : ZMod q) (bit : ℕ → Bool) (wire : Wire) (i : ℕ) : ZMod q :=
  if i < size then bitClasses q (bit i) wire
  else if i < 2 * size - 1 then stepClasses size h G bit (i - size) wire
  else 0

variable {size : ℕ} {h G : ZMod q} {bit : ℕ → Bool} {wire : Wire} {k : ℕ}

theorem honest_bit (below : k < size) :
    honest size h G bit wire k = bitClasses q (bit k) wire :=
  if_pos below

theorem honest_step (below : k + 1 < size) :
    honest size h G bit wire (size + k) = stepClasses size h G bit k wire := by
  rw [honest, if_neg (by omega), if_pos (by omega), Nat.add_sub_cancel_left]

theorem power_succ : h ^ bitSum bit (k + 1) = h ^ bitSum bit k * selected h bit k := by
  rw [bitSum_succ, pow_add, selected]

/-- The product of the last step. -/
theorem honest_final (long : 2 ≤ size) :
    honest size h G bit .c (2 * size - 2) = G * h ^ bitSum bit size := by
  obtain ⟨k, rfl⟩ := Nat.exists_eq_add_of_le long
  rw [show 2 * (2 + k) - 2 = 2 + k + k by omega, honest_step (by omega), Nat.add_comm 2 k]
  simp only [stepClasses, stepLeft, if_pos]
  rw [power_succ (k := k + 1)]
  ring

end

namespace Wires

variable {q : ℕ} [NeZero q]

private theorem bitGates_eq_ok (field : PrimeField) (bit : ℕ → Bool) (size : ℕ) :
    bitGates field ((List.range size).map bit)
      = .ok ((List.range size).map fun k => classTriple (bitClasses field.modulus (bit k))) := by
  rw [bitGates, List.mapM_map]
  apply mapM_eq_ok
  intro k _
  rw [Function.comp_apply, bitGate, field.one_eq, field.zero_eq]
  cases bit k
  · simp [classTriple, bitClasses, Triple.ofFn]
  · simp [classTriple, bitClasses, Triple.ofFn]

private theorem selectors_eq (h : ZMod q) (bit : ℕ → Bool) (size : ℕ) :
    List.zipWith selector ((List.range size).map bit) ((ofZMod h).squares size)
      = (List.range size).map fun k => ofZMod (selected h bit k) := by
  rw [squares_ofZMod]
  apply List.ext_getElem
  · simp
  · intro k _ _
    cases value : bit k
    · simp [selector, selected, value]
    · simp [selector, selected, value]

/-- The steps from number `k` on are those up to the last one. -/
private theorem stepGates_eq_ok (layout : Layout) (h G : ZMod q) (bit : ℕ → Bool) {steps k : ℕ}
    (total : k + steps + 1 = layout.serialSize) :
    stepGates layout (ofZMod G)
        ((List.range layout.serialSize).map fun j => ofZMod (selected h bit j)).toArray steps k
        (ofZMod (h ^ bitSum bit k))
      = .ok ((List.range' k steps).map fun j =>
          classTriple (stepClasses layout.serialSize h G bit j)) := by
  have words := layout.serialSize_lt_limit
  induction steps generalizing k with
  | zero => rfl
  | succ steps ih =>
    have product : (ofZMod (h ^ bitSum bit k)).mul (ofZMod (selected h bit k))
        = .ok (ofZMod (h ^ bitSum bit (k + 1))) := by
      rw [mul_ofZMod, power_succ]
    have last : k = layout.lastStep ↔ k + 2 = layout.serialSize := by
      unfold Layout.lastStep
      omega
    rw [stepGates, entry_range _ (by omega), ok_bind, product, ok_bind, Count.add_eq_ok (by omega),
      ok_bind, entry_range _ (by omega), ok_bind, layout.findLastStep_eq_ok, ok_bind]
    simp only [last]
    by_cases scaled : k + 2 = layout.serialSize
    · simp only [if_pos scaled, mul_ofZMod, ok_bind, ih (k := k + 1) (by omega)]
      simp [List.range'_succ, classTriple, Triple.ofFn, stepClasses, stepLeft, scaled]
    · simp only [if_neg scaled, pure_eq_ok, ok_bind, mul_ofZMod, ih (k := k + 1) (by omega)]
      simp [List.range'_succ, classTriple, Triple.ofFn, stepClasses, stepLeft, scaled]

/-- The gates of the bits, and then those of the steps, written into a grid of zeros. -/
private theorem putAll_honest (layout : Layout) (h G : ZMod q) (bit : ℕ → Bool) :
    (do
      let gates ← (classGrid layout.rows layout.columns (0 : Wire → ℕ → ZMod q)).putAll
        layout.bitCell 0
        ((List.range layout.serialSize).map fun k => classTriple (bitClasses q (bit k)))
      gates.putAll layout.stepCell 0 ((List.range (layout.serialSize - 1)).map fun k =>
        classTriple (stepClasses layout.serialSize h G bit k)))
      = .ok (classGrid layout.rows layout.columns (honest layout.serialSize h G bit)) := by
  have size := layout.three_le_serialSize
  have used := layout.usedCount_le
  unfold Layout.usedCount at used
  have bitCells (k : ℕ) (below : k < layout.serialSize) :
      layout.bitCell k = .ok (Cell.ofPosition layout.columns (0 + k)) := by
    rw [layout.bitCell_eq_ok below, Nat.zero_add, layout.cell_eq]
  have stepCells (k : ℕ) (below : k < layout.serialSize - 1) :
      layout.stepCell k = .ok (Cell.ofPosition layout.columns (layout.serialSize + k)) := by
    rw [layout.stepCell_eq_ok (by omega), layout.cell_eq]
  rw [classGrid, Grid.putAll_range _ _ bitCells (by omega), ok_bind,
    Grid.putAll_range _ _ stepCells (by omega), Except.ok.injEq]
  apply Grid.tabulate_congr
  intro i _
  by_cases ofBit : i < layout.serialSize
  · have before : ¬(layout.serialSize ≤ i ∧ i < layout.serialSize + (layout.serialSize - 1)) := by
      omega
    simp [before, ofBit, honest]
  · by_cases ofStep : i < 2 * layout.serialSize - 1
    · have within : layout.serialSize ≤ i ∧ i < layout.serialSize + (layout.serialSize - 1) := by
        omega
      simp [within, ofBit, ofStep, honest]
    · have beyond : ¬(layout.serialSize ≤ i ∧ i < layout.serialSize + (layout.serialSize - 1)) := by
        omega
      simp [beyond, ofBit, ofStep, honest]

/-- The wires assigned for a witness depend on its serial number and its bits alone. -/
theorem assign_eq_ok {p : Parameters} {w : Witness} {layout : Layout}
    (accepted : Layout.ofShape p.shape = .ok layout)
    (narrow : bitLength w.randomness.value ≤ layout.serialSize) :
    assign w p
      = .ok (ofClasses layout
          (honest layout.serialSize p.hClass (p.gClass ^ w.serial.value) w.bit)) := by
  have size := layout.three_le_serialSize
  have wide : ¬layout.serialSize < bitLength w.randomness.value := by omega
  have blank : layout.filled (⟨ofZMod 0, ofZMod 0, ofZMod 0⟩ : Triple Residue)
      = .ok (classGrid layout.rows layout.columns (0 : Wire → ℕ → ZMod p.field.modulus)) :=
    Grid.filled_eq_ok layout.cells_lt_limit
  have steps : Count.sub layout.serialSize 1 = .ok (layout.serialSize - 1) :=
    Count.sub_eq_ok (by omega)
  have stepGates := stepGates_eq_ok layout p.hClass (p.gClass ^ w.serial.value) w.bit
    (show 0 + (layout.serialSize - 1) + 1 = layout.serialSize by omega)
  rw [← List.range_eq_range', bitSum_zero, pow_zero] at stepGates
  obtain ⟨gates, placedBits, placedSteps⟩ := bind_eq_ok_iff.mp
    (putAll_honest layout p.hClass (p.gClass ^ w.serial.value) w.bit)
  rw [assign, accepted]
  simp only [Attempt.restate_ok, ok_bind, if_neg wide, pure_eq_ok, blank, Witness.bits,
    bitGates_eq_ok, p.field.zero_eq, p.field.one_eq, p.h_eq, p.g_eq, pow_ofZMod, selectors_eq,
    steps, stepGates, Attempt.liftM_ok, placedBits, placedSteps, layout.countUsed_eq_ok]
  rfl

/-- A randomness with too many bits is refused, whichever bits are claimed for it. -/
theorem assign_too_wide {p : Parameters} {w : Witness} {layout : Layout}
    (accepted : Layout.ofShape p.shape = .ok layout)
    (wide : layout.serialSize < bitLength w.randomness.value) :
    assign w p
      = .error (.refused (.tooWide (bitLength w.randomness.value) layout.serialSize)) := by
  rw [assign, accepted]
  simp only [Attempt.restate_ok, ok_bind, if_pos wide, throw_eq_error, error_bind]

end Wires

end CoinSpend
