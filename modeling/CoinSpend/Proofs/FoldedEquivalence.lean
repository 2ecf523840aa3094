import CoinSpend.Proofs.AggregationSoundness
import CoinSpend.Proofs.PrescribedResiduals

/-!
# What the folded equation decides

If all relations hold, the folded equation holds under every challenge. For the converse the field
has to be larger than the number of relations: the residuals are the coefficients of a polynomial,
and a field of `q` elements takes the powers `y ^ k` and `y ^ (k + (q - 1))` for the same function
on its elements other than zero. Two opposite residuals that far apart cancel out under every
challenge, and there are wires that are off by just two such residuals.
-/

namespace CoinSpend

open Residue

/-- Whether the folded equation tells what it is made for: it holds under every challenge but zero
    exactly if no relation is violated. -/
def BoundSystem.FoldDecides (bound : BoundSystem) (field : PrimeField) (pads : ℕ)
    (wires : Wires) : Prop :=
  (∀ y : Residue, field.Contains y → y.value ≠ 0 → bound.Passes pads wires y) ↔
    ∀ relation, ¬bound.Violated wires relation

/-! ## Polynomials without roots but zero -/

section

variable {q : ℕ} {n : ℕ}

/-- Two opposite coefficients, `q - 1` apart. -/
def oppositePair (d : ZMod q) (j k : ℕ) : ZMod q :=
  if k = j then d else if k = j + (q - 1) then -d else 0

theorem oppositePair_low (d : ZMod q) (j : ℕ) : oppositePair d j j = d :=
  if_pos rfl

theorem oppositePair_of_ne_high (d : ZMod q) {j k : ℕ} (other : k ≠ j + (q - 1)) :
    oppositePair d j k = if k = j then d else 0 := by
  rw [oppositePair, if_neg other]

variable [Fact q.Prime]

theorem oppositePair_high (d : ZMod q) (j : ℕ) : oppositePair d j (j + (q - 1)) = -d := by
  have large := (Fact.out : q.Prime).two_le
  rw [oppositePair, if_neg (by omega), if_pos rfl]

/-- Such coefficients cancel out on all elements but zero. -/
theorem sum_oppositePair (d : ZMod q) {j : ℕ} (room : j + (q - 1) < n) {z : ZMod q}
    (nonzero : z ≠ 0) : ∑ k ∈ Finset.range n, oppositePair d j k * z ^ k = 0 := by
  have large := (Fact.out : q.Prime).two_le
  rw [Finset.sum_eq_add_of_mem j (j + (q - 1)) (Finset.mem_range.mpr (by omega))
    (Finset.mem_range.mpr room) (by omega)]
  · rw [oppositePair_low, oppositePair_high, pow_add, ZMod.pow_card_sub_one_eq_one nonzero]
    ring
  · rintro k - ⟨low, high⟩
    rw [oppositePair, if_neg low, if_neg high, zero_mul]

/-- Fewer coefficients than there are elements vanish if their polynomial does. -/
theorem coefficients_eq_zero (few : n < q) {a : ℕ → ZMod q}
    (roots : ∀ z : ZMod q, z ≠ 0 → ∑ k ∈ Finset.range n, a k * z ^ k = 0) :
    ∀ k < n, a k = 0 := by
  intro k below
  by_contra nonzero
  have vanish : ∀ z ∈ Finset.univ.erase (0 : ZMod q), ∑ k ∈ Finset.range n, a k * z ^ k = 0 :=
    fun z member => roots z (Finset.ne_of_mem_erase member)
  have bound := card_roots_le a below nonzero vanish
  rw [Finset.card_erase_of_mem (Finset.mem_univ 0), Finset.card_univ, ZMod.card] at bound
  omega

end

/-! ## Wires that no challenge tells from satisfied ones -/

section

variable {q : ℕ} {layout : Layout} {j : ℕ}

/-- The power number of the gate at a position. -/
def gatePower (layout : Layout) (i : ℕ) : ℕ :=
  (layout.cell i).col * layout.rows + (layout.cell i).row

theorem gatePower_lt {i : ℕ} (below : i < layout.rows * layout.columns) :
    gatePower layout i < layout.rows * layout.columns :=
  Relation.column_position_lt (layout.inside_cell below)

theorem gatePower_position {m col : ℕ} (column : col < layout.columns) :
    gatePower layout (m * layout.columns + col) = col * layout.rows + m := by
  rw [gatePower, layout.cell_eq, Cell.ofPosition, Cell.row_of_position column,
    Cell.col_of_position column]

/-- Two opposite residuals: of the relation with the power number `j`, and of the last link. If
    the first one is that of the gate or of the product of a bit, the bit gets the first factor
    two. -/
def Prescription.hidden (q : ℕ) (layout : Layout) (j : ℕ)
    (apart : j + (q - 1) = layout.rows * layout.columns + layout.lastLink) :
    Prescription q layout.serialSize where
  gate i := oppositePair 2 j (gatePower layout i)
  row i := oppositePair 2 j (layout.rows * layout.columns + i)
  bit k :=
    if gatePower layout k = j ∨ layout.rows * layout.columns + (layout.serialSize + k) = j then 2
    else 0
  bit_solves := by
    intro k below
    have long := layout.three_le_serialSize
    have used := layout.usedCount_le
    unfold Layout.usedCount at used
    unfold Layout.lastLink at apart
    have ofGates : gatePower layout k < layout.rows * layout.columns := gatePower_lt (by omega)
    -- None of the three relations of a bit is the last link.
    rw [oppositePair_of_ne_high 2 (by omega), oppositePair_of_ne_high 2 (by omega),
      oppositePair_of_ne_high 2 (by omega)]
    by_cases gate : gatePower layout k = j
    · rw [if_pos (Or.inl gate), if_pos gate, if_neg (by omega), if_neg (by omega)]
      ring
    by_cases product : layout.rows * layout.columns + (layout.serialSize + k) = j
    · rw [if_pos (Or.inr product), if_neg gate, if_pos product, if_neg (by omega)]
      ring
    · rw [if_neg (not_or_intro gate product), if_neg gate, if_neg product]
      ring

end

namespace Parameters

/-- The generators leave out zero and one. -/
theorem three_le_modulus (p : Parameters) : 3 ≤ p.field.modulus := by
  have range := p.isGenerator_g.2
  have below := p.g.value_lt
  have contained : p.g.modulus = p.field.modulus := p.isGenerator_g.1
  omega

theorem two_ne_zero (p : Parameters) : (2 : ZMod p.field.modulus) ≠ 0 := by
  have large := p.three_le_modulus
  intro zero
  have divides := (ZMod.natCast_eq_zero_iff 2 p.field.modulus).mp (by exact_mod_cast zero)
  exact absurd (Nat.le_of_dvd (by decide) divides) (by omega)

end Parameters

section

variable {p : Parameters} {layout : Layout} {j : ℕ}
  (apart : j + (p.field.modulus - 1) = layout.rows * layout.columns + layout.lastLink)
  (G : ZMod p.field.modulus)

/-- The residuals, in the order of their powers, are the two opposite ones. -/
theorem coefficient_hidden : ∀ k < Relation.powerCount layout,
    Relation.coefficient (.onLayout p layout) G
        ((Prescription.hidden p.field.modulus layout j apart).classes p.hClass G) k
      = oppositePair 2 j k := by
  let r := Prescription.hidden p.field.modulus layout j apart
  apply Relation.forall_powers
  case gate =>
    intro m row col column
    have weighed := Relation.coefficient_gate (.onLayout p layout) G (r.classes p.hClass G) row
      column
    have power : r.gate (m * layout.columns + col) = oppositePair 2 j (col * layout.rows + m) :=
      congrArg (oppositePair 2 j) (gatePower_position column)
    exact weighed.trans ((r.gateResidual_classes p.hClass G _).trans power)
  case constraint =>
    intro i below
    have weighed := Relation.coefficient_constraint (.onLayout p layout) G
      (r.classes p.hClass G) i
    exact weighed.trans (LinearSystem.residual_classes r G i below)

end

/-! ## What is decided -/

section

variable {p : Parameters} [Fact p.field.modulus.Prime] {layout : Layout} {serial : Residue}
  {V : Wire → ℕ → ZMod p.field.modulus} {pads : ℕ}

/-- All challenges pass if all elements but zero are roots. -/
theorem passes_all_iff (padded : layout.columns + pads < Count.limit) :
    (∀ y : Residue, p.field.Contains y → y.value ≠ 0 →
        ((LinearSystem.onLayout p layout).bind serial).Passes pads (.ofClasses layout V) y)
      ↔ ∀ z : ZMod p.field.modulus, z ≠ 0 →
        Relation.fold (.onLayout p layout) (p.gClass ^ serial.value) V z = 0 := by
  constructor
  · intro passes z nonzero
    have contained : p.field.Contains (ofZMod z) := rfl
    have value : (ofZMod z).value ≠ 0 := by
      rwa [value_ofZMod, ne_eq, ZMod.val_eq_zero]
    have root := ((passes_iff contained value).mp (passes _ contained value)).2
    rwa [toZMod_ofZMod] at root
  · intro roots y contained nonzero
    exact (passes_iff contained nonzero).mpr
      ⟨padded, roots _ (mt (toZMod_eq_zero_iff contained).mp nonzero)⟩

/-- No relation is violated if all residuals are zero. -/
theorem violates_none_iff :
    (∀ relation, ¬((LinearSystem.onLayout p layout).bind serial).Violated (.ofClasses layout V)
        relation)
      ↔ ∀ k < Relation.powerCount layout,
        Relation.coefficient (.onLayout p layout) (p.gClass ^ serial.value) V k = 0 := by
  constructor
  · intro none k below
    by_contra nonzero
    exact none _ ((violated_ofPower_iff below).mpr nonzero)
  · intro zero relation violated
    obtain ⟨k, below, rfl⟩ := exists_ofPower violated
    exact (violated_ofPower_iff below).mp violated (zero k below)

/-- Wires that violate no relation pass. -/
theorem passes_of_violates_none (padded : layout.columns + pads < Count.limit)
    (none : ∀ relation,
      ¬((LinearSystem.onLayout p layout).bind serial).Violated (.ofClasses layout V) relation) :
    ∀ y : Residue, p.field.Contains y → y.value ≠ 0 →
      ((LinearSystem.onLayout p layout).bind serial).Passes pads (.ofClasses layout V) y := by
  have zero := violates_none_iff.mp none
  refine (passes_all_iff padded).mpr fun z _ => Finset.sum_eq_zero fun k member => ?_
  rw [zero k (Finset.mem_range.mp member), zero_mul]

/-- With fewer relations than the field has elements, wires that pass violate none. -/
theorem violates_none_of_passes (few : Relation.powerCount layout < p.field.modulus)
    (padded : layout.columns + pads < Count.limit)
    (passes : ∀ y : Residue, p.field.Contains y → y.value ≠ 0 →
      ((LinearSystem.onLayout p layout).bind serial).Passes pads (.ofClasses layout V) y) :
    ∀ relation,
      ¬((LinearSystem.onLayout p layout).bind serial).Violated (.ofClasses layout V) relation :=
  violates_none_iff.mpr (coefficients_eq_zero few ((passes_all_iff padded).mp passes))

/-- With at least as many relations as the field has elements, some wires violate two of them and
    pass under every challenge. -/
theorem exists_hidden (serial : Residue) (many : p.field.modulus ≤ Relation.powerCount layout) :
    ∃ V : Wire → ℕ → ZMod p.field.modulus,
      (∀ z : ZMod p.field.modulus, z ≠ 0 →
        Relation.fold (.onLayout p layout) (p.gClass ^ serial.value) V z = 0) ∧
      ∃ k < Relation.powerCount layout,
        Relation.coefficient (.onLayout p layout) (p.gClass ^ serial.value) V k ≠ 0 := by
  have large := p.three_le_modulus
  have count : layout.rows * layout.columns + (layout.lastLink + 1)
      = Relation.powerCount layout := by
    rw [layout.lastLink_succ, Relation.powerCount]
  let j := Relation.powerCount layout - p.field.modulus
  have apart : j + (p.field.modulus - 1) = layout.rows * layout.columns + layout.lastLink := by
    omega
  have room : j + (p.field.modulus - 1) < Relation.powerCount layout := by omega
  have coefficients := coefficient_hidden apart (p.gClass ^ serial.value)
  refine ⟨(Prescription.hidden p.field.modulus layout j apart).classes p.hClass
    (p.gClass ^ serial.value), ?_, j, by omega, ?_⟩
  · intro z nonzero
    refine (Finset.sum_congr rfl ?_).trans (sum_oppositePair 2 room nonzero)
    intro k member
    rw [coefficients k (Finset.mem_range.mp member)]
  · rw [coefficients j (by omega), oppositePair_low]
    exact p.two_ne_zero

end

/-- Over a field, wires that violate no relation pass the folded equation under every challenge but
    zero. That all wires which pass under every challenge violate no relation is true exactly if
    the field has more elements than there are relations. -/
theorem foldDecides_iff_few {p : Parameters} (prime : p.field.modulus.Prime)
    {system : LinearSystem} (built : LinearSystem.ofParameters p = .ok system) (serial : Residue)
    {pads : ℕ} (padded : system.layout.columns + pads < Count.limit) :
    let bound := system.bind serial
    let relations := system.layout.rows * system.layout.columns + 4 * system.layout.serialSize - 2
    (∀ wires : Wires, wires.layout = system.layout → wires.Over p.field →
      (∀ relation, ¬bound.Violated wires relation) →
        ∀ y : Residue, p.field.Contains y → y.value ≠ 0 → bound.Passes pads wires y) ∧
    ((∀ wires : Wires, wires.layout = system.layout → wires.Over p.field →
      bound.FoldDecides p.field pads wires) ↔ relations < p.field.modulus) := by
  have : Fact p.field.modulus.Prime := ⟨prime⟩
  obtain ⟨layout, accepted, rfl⟩ := LinearSystem.ofParameters_eq_ok_iff.mp built
  have long := layout.three_le_serialSize
  intro bound relations
  have count : Relation.powerCount layout = relations := by
    change layout.rows * layout.columns + (4 * layout.serialSize - 2)
      = layout.rows * layout.columns + 4 * layout.serialSize - 2
    omega
  refine ⟨?_, ?_, ?_⟩
  · intro wires sameLayout ofField
    obtain ⟨V, rfl⟩ := Wires.exists_eq_ofClasses sameLayout ofField
    exact passes_of_violates_none padded
  · intro decides
    by_contra few
    have many : p.field.modulus ≤ Relation.powerCount layout := by omega
    obtain ⟨V, roots, k, below, nonzero⟩ := exists_hidden serial many
    have sound := (decides (.ofClasses layout V) rfl (Wires.over_ofClasses V)).mp
      ((passes_all_iff padded).mpr roots)
    exact nonzero (violates_none_iff.mp sound k below)
  · intro few wires sameLayout ofField
    obtain ⟨V, rfl⟩ := Wires.exists_eq_ofClasses sameLayout ofField
    exact ⟨violates_none_of_passes (count ▸ few) padded, passes_of_violates_none padded⟩

/-- `Parameters.seven` over the field with seventeen elements. -/
def Parameters.seventeen : Parameters where
  field := ⟨17, by decide, by decide⟩
  g := ⟨17, 3, by decide⟩
  h := ⟨17, 5, by decide⟩
  shape := Parameters.seven.shape
  isGenerator_g := ⟨rfl, by decide⟩
  isGenerator_h := ⟨rfl, by decide⟩
  usable_shape := Parameters.seven.usable_shape

/-- Sixteen relations are few enough for seventeen elements, and too many for seven. -/
theorem foldDecides_iff_few_seventeen :
    (∀ wires : Wires, wires.layout = Layout.seven → wires.Over Parameters.seventeen.field →
      ((LinearSystem.onLayout .seventeen .seven).bind
        (Parameters.seventeen.field.residue 2)).FoldDecides Parameters.seventeen.field 1 wires) ∧
    ¬∀ wires : Wires, wires.layout = Layout.seven → wires.Over Parameters.seven.field →
      ((LinearSystem.onLayout .seven .seven).bind
        (Parameters.seven.field.residue 2)).FoldDecides Parameters.seven.field 1 wires := by
  have prime : Nat.Prime Parameters.seventeen.field.modulus := by
    change Nat.Prime 17
    decide
  have built : LinearSystem.ofParameters .seventeen = .ok (.onLayout .seventeen .seven) :=
    LinearSystem.ofParameters_eq_ok_iff.mpr ⟨.seven, by decide, rfl⟩
  have padded : Layout.seven.columns + 1 < Count.limit := by decide
  have enough := (foldDecides_iff_few prime built (Parameters.seventeen.field.residue 2) padded).2
  have tooFew := (foldDecides_iff_few Nat.prime_seven ofParameters_seven
    (Parameters.seven.field.residue 2) padded).2
  exact ⟨enough.mpr (by decide), mt tooFew.mp (by decide)⟩

/-- The classes of the wires for the randomness four, with the lowest bit set afterwards. -/
def hiddenSeven : Wire → ℕ → ZMod Parameters.seven.field.modulus :=
  setClass (honest 3 Parameters.seven.hClass (Parameters.seven.gClass ^ 2) (Nat.testBit 4)) .a 0 1

/-- Two opposite residuals, six powers apart: of the gate and of the first constraint of the bit. -/
theorem coefficient_hiddenSeven : ∀ k < 16,
    Relation.coefficient (.onLayout .seven .seven) (Parameters.seven.gClass ^ 2) hiddenSeven k
      = oppositePair (-1) 0 k := by
  decide

/-- A bit that is set in the wires but not in its second factor: its gate and its first constraint
    are off by opposite residuals, six powers apart, and over seven elements no challenge tells. -/
theorem not_foldDecides_seven :
    let field := Parameters.seven.field
    let bound := (LinearSystem.onLayout .seven .seven).bind (field.residue 2)
    ∃ assigned wires : Wires,
      Wires.assign (.ofOpening (field.residue 2) (field.residue 4)) .seven = .ok assigned ∧
      assigned.set .a ⟨0, 0⟩ field.one = .ok wires ∧
      (∀ y : Residue, field.Contains y → y.value ≠ 0 → bound.Passes 1 wires y) ∧
      bound.Violated wires (.gate ⟨0, 0⟩) ∧ ¬bound.FoldDecides field 1 wires := by
  have : Fact Parameters.seven.field.modulus.Prime := ⟨Nat.prime_seven⟩
  intro field bound
  have padded : Layout.seven.columns + 1 < Count.limit := by decide
  have passes : ∀ y : Residue, field.Contains y → y.value ≠ 0 →
      bound.Passes 1 (.ofClasses Layout.seven hiddenSeven) y := by
    refine (passes_all_iff padded).mpr ?_
    intro z nonzero
    have cancel : ∑ k ∈ Finset.range 16, oppositePair (-1) 0 k * z ^ k = 0 :=
      sum_oppositePair (-1) (by decide) nonzero
    refine (Finset.sum_congr rfl fun k member => ?_).trans cancel
    exact congrArg (· * z ^ k) (coefficient_hiddenSeven k (Finset.mem_range.mp member))
  have inside : (⟨0, 0⟩ : Cell).Inside Layout.seven.rows Layout.seven.columns :=
    ⟨by decide, by decide⟩
  have violated : bound.Violated (.ofClasses Layout.seven hiddenSeven) (.gate ⟨0, 0⟩) := by
    refine (violated_gate_iff inside).mpr ?_
    decide
  have accepted : Layout.ofShape Parameters.seven.shape = .ok .seven := by decide
  have narrow : bitLength (field.residue 4).value ≤ Layout.seven.serialSize := by decide
  have assigned := Wires.assign_eq_ok (w := .ofOpening (field.residue 2) (field.residue 4))
    accepted narrow
  refine ⟨_, _, assigned, ?_, passes, violated, fun decides => decides.mp passes _ violated⟩
  rw [field.one_eq]
  exact Wires.set_ofClasses _ .a inside 1

end CoinSpend
