import CoinSpend.Proofs.AggregationSoundness

/-!
# The violation that is reported

The check of all relations stops at the first one that is violated: the gates come row by row, then
the commitment, then the checked constraints by their numbers, then the folded equation. What an
outcome says about the relations is defined apart from the passes that look for it. Every outcome
then is the one that holds, and none of the passes meets a fault.
-/

namespace CoinSpend

open Residue

/-! ## What an outcome says -/

/-- The class of an entry of a table. -/
def classOf (q : ℕ) (entry : Option Residue) : ZMod q :=
  (entry.map (toZMod q)).getD 0

/-- Whether the product of the last step is the commitment. -/
def Wires.Opens (wires : Wires) (commitment : Residue) : Prop :=
  wires.value? .c wires.layout.lastCell = some commitment

instance (wires : Wires) (commitment : Residue) : Decidable (wires.Opens commitment) :=
  inferInstanceAs (Decidable (_ = _))

namespace Aggregation

/-- An aggregation over a layout and a field: the tables reach over all rows and columns, and hold
    residues of the field. -/
structure Over (field : PrimeField) (layout : Layout) (aggregation : Aggregation) : Prop where
  sameLayout : aggregation.layout = layout
  rows : layout.rows < aggregation.powers.size
  powers : ∀ x ∈ aggregation.powers, field.Contains x
  columns : aggregation.columnPowers.length = layout.columns
  columnPowers : ∀ x ∈ aggregation.columnPowers, field.Contains x
  weights : ∀ wire cell triple, aggregation.weights.get? cell = some triple →
    field.Contains (triple.on wire)
  constant : field.Contains aggregation.constant

/-- The products of the factors of all gates, each row times its power and each column times its
    own. -/
def foldedProducts (q : ℕ) (aggregation : Aggregation) (wires : Wires) : ZMod q :=
  ∑ m ∈ Finset.range wires.layout.rows, classOf q aggregation.powers[m + 1]?
    * ∑ col ∈ Finset.range wires.layout.columns,
      classOf q (wires.value? .a ⟨m, col⟩) * classOf q (wires.value? .b ⟨m, col⟩)
        * classOf q aggregation.columnPowers[col]?

/-- The values on all wires times their weights. -/
def foldedValues (q : ℕ) (aggregation : Aggregation) (wires : Wires) : ZMod q :=
  (Wire.all.map fun wire =>
    ∑ m ∈ Finset.range wires.layout.rows, ∑ col ∈ Finset.range wires.layout.columns,
      classOf q (wires.value? wire ⟨m, col⟩)
        * classOf q ((aggregation.weights.get? ⟨m, col⟩).map fun triple => triple.on wire)).sum

/-- Whether the folded equation holds: products and values add up to the constant. -/
def Balances (q : ℕ) (aggregation : Aggregation) (wires : Wires) : Prop :=
  aggregation.foldedProducts q wires + aggregation.foldedValues q wires
    = classOf q (some aggregation.constant)

instance (q : ℕ) (aggregation : Aggregation) (wires : Wires) :
    Decidable (aggregation.Balances q wires) :=
  inferInstanceAs (Decidable (_ = _))

end Aggregation

/-- What an outcome of the check of all relations says about them. -/
def BoundSystem.Reports (bound : BoundSystem) (q : ℕ) (wires : Wires) (commitment : Residue)
    (aggregation : Aggregation) : Attempt CheckError Unit → Prop
  | .error (.refused (.gate cell)) =>
      bound.Violated wires (.gate cell) ∧
      ∀ other, bound.Violated wires (.gate other) → cell = other ∨ cell.Precedes other
  | .error (.refused (.commitment cell)) =>
      (∀ cell, ¬bound.Violated wires (.gate cell)) ∧
      cell = wires.layout.lastCell ∧ ¬wires.Opens commitment
  | .error (.refused (.constraint index)) =>
      (∀ cell, ¬bound.Violated wires (.gate cell)) ∧ wires.Opens commitment ∧
      bound.Violated wires (.constraint index) ∧
      ∀ other, bound.Violated wires (.constraint other) → index ≤ other
  | .error (.refused .aggregation) =>
      (∀ relation, ¬bound.Violated wires relation) ∧ wires.Opens commitment ∧
      ¬aggregation.Balances q wires
  | .error (.fault _) => False
  | .ok () =>
      (∀ relation, ¬bound.Violated wires relation) ∧ wires.Opens commitment ∧
      aggregation.Balances q wires

/-- Constraints over a field, bound to the power of a serial number in it. -/
structure BoundSystem.Over (field : PrimeField) (bound : BoundSystem) : Prop where
  system : bound.system.Fits field.modulus
  serialPower : field.Contains bound.serialPower

section

variable {q : ℕ} [NeZero q] {layout : Layout} {V : Wire → ℕ → ZMod q}

theorem Wires.checkCommitment_eq_require (commitment : Residue) :
    (ofClasses layout V).checkCommitment commitment
      = require ((ofClasses layout V).Opens commitment)
          (.refused (.commitment layout.lastCell)) := by
  have used := layout.usedCount_le
  have long := layout.three_le_serialSize
  have below : 2 * layout.serialSize - 2 < layout.rows * layout.columns := by
    unfold Layout.usedCount at used
    omega
  rw [checkCommitment_ofClasses]
  apply require_congr
  rw [Opens, layout_ofClasses, layout.lastCell_eq, value?_cell V .c below, Option.some.injEq]

theorem classOf_value? (wire : Wire) {m col : ℕ} (row : m < layout.rows)
    (column : col < layout.columns) :
    classOf q ((Wires.ofClasses layout V).value? wire ⟨m, col⟩)
      = V wire (m * layout.columns + col) := by
  have inside : (⟨m, col⟩ : Cell).Inside layout.rows layout.columns := ⟨row, column⟩
  rw [Wires.value?_ofClasses V wire inside]
  exact toZMod_ofZMod _

/-! ## The first gate -/

variable {bound : BoundSystem}

theorem checkGates_eq_ok_iff :
    (Wires.ofClasses layout V).checkGates = .ok ()
      ↔ ∀ cell, ¬bound.Violated (.ofClasses layout V) (.gate cell) := by
  rw [Wires.checkGates_ofClasses, forM_require_eq_ok_iff]
  constructor
  · intro multiply cell violated
    have inside := inside_of_violated violated
    exact (violated_gate_iff inside).mp violated (multiply _ (Cell.position_lt inside))
  · intro none i below
    by_contra nonzero
    have inside := layout.inside_cell below
    refine none _ ((violated_gate_iff inside).mpr ?_)
    rwa [layout.position_cell]

theorem checkGates_eq_error {cell : Cell}
    (violated : bound.Violated (.ofClasses layout V) (.gate cell))
    (first : ∀ other, bound.Violated (.ofClasses layout V) (.gate other) →
      cell = other ∨ cell.Precedes other) :
    (Wires.ofClasses layout V).checkGates = .error (.refused (.gate cell)) := by
  have inside := inside_of_violated violated
  have earlier (j : ℕ) (before : j < cell.position layout.columns) : gateResidual V j = 0 := by
    by_contra nonzero
    have inside' := layout.inside_cell (Nat.lt_trans before (Cell.position_lt inside))
    have violated' : bound.Violated (.ofClasses layout V) (.gate (layout.cell j)) := by
      rwa [violated_gate_iff inside', layout.position_cell]
    rcases first _ violated' with rfl | precedes
    · exact Nat.lt_irrefl _ (Nat.lt_of_lt_of_eq before (layout.position_cell j))
    · rw [Cell.precedes_iff_position inside.2 inside'.2, layout.position_cell] at precedes
      exact Nat.lt_asymm before precedes
  rw [Wires.checkGates_ofClasses, forM_require_eq_error (Cell.position_lt inside) earlier
    ((violated_gate_iff inside).mp violated), Layout.cell_position inside]

/-- Of the gates that are violated one comes first. -/
theorem exists_first_gate {cell : Cell}
    (violated : bound.Violated (.ofClasses layout V) (.gate cell)) :
    ∃ first, bound.Violated (.ofClasses layout V) (.gate first) ∧
      ∀ other, bound.Violated (.ofClasses layout V) (.gate other) →
        first = other ∨ first.Precedes other := by
  classical
  let Fails (i : ℕ) : Prop :=
    i < layout.rows * layout.columns ∧ bound.Violated (.ofClasses layout V) (.gate (layout.cell i))
  have fails {other : Cell} (violated : bound.Violated (.ofClasses layout V) (.gate other)) :
      Fails (other.position layout.columns) := by
    have inside := inside_of_violated violated
    exact ⟨Cell.position_lt inside, (Layout.cell_position inside).symm ▸ violated⟩
  have some : ∃ i, Fails i := ⟨_, fails violated⟩
  obtain ⟨below, here⟩ := Nat.find_spec some
  refine ⟨_, here, ?_⟩
  intro other violated'
  have inside := layout.inside_cell below
  have inside' := inside_of_violated violated'
  have least := Nat.find_min' some (fails violated')
  rw [← Cell.position_inj inside.2 inside'.2, Cell.precedes_iff_position inside.2 inside'.2,
    layout.position_cell]
  exact Nat.eq_or_lt_of_le least

/-! ## The first constraint -/

section

variable {G : ZMod q} (power : bound.serialPower = ofZMod G) (fits : bound.system.Fits q)
  {V : Wire → ℕ → ZMod q}

include power fits

theorem checkConstraints_eq_ok_iff :
    bound.checkConstraints (.ofClasses bound.system.layout V) = .ok ()
      ↔ ∀ index, ¬bound.Violated (.ofClasses bound.system.layout V) (.constraint index) := by
  rw [BoundSystem.checkConstraints_ofClasses power fits, forM_require_eq_ok_iff]
  constructor
  · intro hold index violated
    have below := bound.lt_checkedCount_of_violated fits violated
    exact (bound.violated_constraint_iff power fits below).mp violated (hold index below)
  · intro none index below
    by_contra nonzero
    exact none index ((bound.violated_constraint_iff power fits below).mpr nonzero)

theorem checkConstraints_eq_error {index : ℕ}
    (violated : bound.Violated (.ofClasses bound.system.layout V) (.constraint index))
    (first : ∀ other,
      bound.Violated (.ofClasses bound.system.layout V) (.constraint other) → index ≤ other) :
    bound.checkConstraints (.ofClasses bound.system.layout V)
      = .error (.refused (.constraint index)) := by
  have below := bound.lt_checkedCount_of_violated fits violated
  have earlier (j : ℕ) (before : j < index) : bound.system.residual G V j = 0 := by
    by_contra nonzero
    have violated' := (bound.violated_constraint_iff power fits (before.trans below)).mpr nonzero
    exact Nat.not_lt.mpr (first j violated') before
  rw [BoundSystem.checkConstraints_ofClasses power fits, forM_require_eq_error below earlier
    ((bound.violated_constraint_iff power fits below).mp violated)]

end

/-- Of the constraints that are violated one comes first. -/
theorem exists_first_constraint {wires : Wires} {index : ℕ}
    (violated : bound.Violated wires (.constraint index)) :
    ∃ first, bound.Violated wires (.constraint first) ∧
      ∀ other, bound.Violated wires (.constraint other) → first ≤ other := by
  classical
  have some : ∃ index, bound.Violated wires (.constraint index) := ⟨index, violated⟩
  exact ⟨_, Nat.find_spec some, fun other violated' => Nat.find_min' some violated'⟩

end

/-! ## The folded equation -/

namespace Aggregation

variable {field : PrimeField} {layout : Layout} {aggregation : Aggregation}

theorem Over.entry_powers (tabled : aggregation.Over field layout) {k : ℕ}
    (below : k ≤ layout.rows) :
    entry aggregation.powers k = .ok (ofZMod (classOf field.modulus aggregation.powers[k]?)) := by
  have present := Array.getElem?_eq_getElem (Nat.lt_of_le_of_lt below tabled.rows)
  have contained := tabled.powers _ (Array.getElem_mem (Nat.lt_of_le_of_lt below tabled.rows))
  rw [entry_eq_ok_iff, present, classOf, Option.map_some, Option.getD_some, ofZMod_toZMod contained]

theorem Over.columnPowers_eq (tabled : aggregation.Over field layout) :
    aggregation.columnPowers = (List.range layout.columns).map fun col =>
      ofZMod (classOf field.modulus aggregation.columnPowers[col]?) := by
  apply List.ext_getElem
  · simpa using tabled.columns
  · intro col below _
    have contained := tabled.columnPowers _ (List.getElem_mem below)
    simp [classOf, below, ofZMod_toZMod contained]

theorem Over.gateFold_eq_ok (tabled : aggregation.Over field layout)
    (V : Wire → ℕ → ZMod field.modulus) :
    aggregation.gateFold (.ofClasses layout V)
      = .ok (ofZMod (aggregation.foldedProducts field.modulus (.ofClasses layout V))) := by
  rw [Aggregation.gateFold_eq_ok (fun _ => tabled.entry_powers) tabled.columnPowers_eq V]
  congr 2
  apply Finset.sum_congr rfl
  intro m row
  congr 1
  apply Finset.sum_congr rfl
  intro col column
  rw [Finset.mem_range] at row column
  rw [classOf_value? .a row column, classOf_value? .b row column]

/-- The classes of the weights by position. -/
theorem Over.read_weights (tabled : aggregation.Over field layout) {i : ℕ}
    (below : i < layout.rows * layout.columns) :
    aggregation.weights.read (layout.cell i) = .ok (classTriple fun wire => classOf field.modulus
      ((aggregation.weights.get? (layout.cell i)).map fun triple => triple.on wire)) := by
  have inside : (layout.cell i).Inside aggregation.layout.rows aggregation.layout.columns := by
    rw [tabled.sameLayout]
    exact layout.inside_cell below
  obtain ⟨triple, present⟩ := aggregation.weights.exists_get?_eq_some inside
  have held (wire : Wire) : triple.on wire
      = ofZMod (classOf field.modulus (some (triple.on wire))) :=
    (ofZMod_toZMod (tabled.weights wire _ _ present)).symm
  rw [Grid.read, present, ← Triple.ofFn_on triple]
  exact congrArg (fun f => Except.ok (Triple.ofFn f)) (funext held)

theorem Over.linearFold_eq_ok (tabled : aggregation.Over field layout)
    (V : Wire → ℕ → ZMod field.modulus) :
    aggregation.linearFold (.ofClasses layout V)
      = .ok (ofZMod (aggregation.foldedValues field.modulus (.ofClasses layout V))) := by
  rw [Aggregation.linearFold_eq_ok (fun _ => tabled.read_weights) tabled.constant V, pairing,
    foldedValues]
  congr 3
  apply List.map_congr_left
  intro wire _
  rw [sum_range_mul, Wires.layout_ofClasses]
  apply Finset.sum_congr rfl
  intro m row
  apply Finset.sum_congr rfl
  intro col column
  rw [Finset.mem_range] at row column
  have inside : (⟨m, col⟩ : Cell).Inside layout.rows layout.columns := ⟨row, column⟩
  have here : layout.cell (m * layout.columns + col) = ⟨m, col⟩ := Layout.cell_position inside
  rw [classOf_value? wire row column, here]

theorem Over.check_eq_require (tabled : aggregation.Over field layout)
    (V : Wire → ℕ → ZMod field.modulus) :
    aggregation.check (.ofClasses layout V)
      = require (aggregation.Balances field.modulus (.ofClasses layout V))
          (.refused .aggregation) :=
  Aggregation.check_eq_require (tabled.gateFold_eq_ok V) (tabled.linearFold_eq_ok V)
    (ofZMod_toZMod tabled.constant).symm

end Aggregation

/-! ## The outcome -/

section

variable {field : PrimeField} {bound : BoundSystem} {aggregation : Aggregation}
  {V : Wire → ℕ → ZMod field.modulus} {commitment : Residue}

/-- Of the outcomes one holds. -/
theorem exists_reports (bound : BoundSystem) (layout : Layout) (V : Wire → ℕ → ZMod field.modulus)
    (commitment : Residue) (aggregation : Aggregation) :
    ∃ outcome, bound.Reports field.modulus (.ofClasses layout V) commitment aggregation outcome := by
  by_cases gate : ∃ cell, bound.Violated (.ofClasses layout V) (.gate cell)
  · obtain ⟨cell, violated⟩ := gate
    obtain ⟨cell, first⟩ := exists_first_gate violated
    exact ⟨.error (.refused (.gate cell)), first⟩
  have multiply := not_exists.mp gate
  by_cases opens : (Wires.ofClasses layout V).Opens commitment
  swap
  · exact ⟨.error (.refused (.commitment _)), multiply, rfl, opens⟩
  by_cases constraint : ∃ index, bound.Violated (.ofClasses layout V) (.constraint index)
  · obtain ⟨index, violated⟩ := constraint
    obtain ⟨index, first⟩ := exists_first_constraint violated
    exact ⟨.error (.refused (.constraint index)), multiply, opens, first⟩
  have hold := not_exists.mp constraint
  have satisfied (relation : Relation) : ¬bound.Violated (.ofClasses layout V) relation := by
    cases relation with
    | gate cell => exact multiply cell
    | constraint index => exact hold index
  by_cases balances : aggregation.Balances field.modulus (.ofClasses layout V)
  · exact ⟨.ok (), satisfied, opens, balances⟩
  · exact ⟨.error (.refused .aggregation), satisfied, opens, balances⟩

/-- The check has the outcome that holds. -/
theorem check_eq_of_reports (boundOver : bound.Over field)
    (folded : aggregation.Over field bound.system.layout) {outcome : Attempt CheckError Unit}
    (reports : bound.Reports field.modulus (.ofClasses bound.system.layout V) commitment aggregation
      outcome) :
    bound.check (.ofClasses bound.system.layout V) commitment aggregation = outcome := by
  have power : bound.serialPower = ofZMod (bound.serialPower.toZMod field.modulus) :=
    (ofZMod_toZMod boundOver.serialPower).symm
  have fits := boundOver.system
  have gates (multiply : ∀ cell, ¬bound.Violated (.ofClasses bound.system.layout V) (.gate cell)) :=
    checkGates_eq_ok_iff.mpr multiply
  have constraints
      (hold : ∀ index, ¬bound.Violated (.ofClasses bound.system.layout V) (.constraint index)) :=
    (checkConstraints_eq_ok_iff power fits).mpr hold
  rw [BoundSystem.check]
  cases outcome with
  | ok answer =>
    obtain ⟨satisfied, opens, balances⟩ := reports
    rw [gates fun cell => satisfied _, ok_bind, Wires.checkCommitment_eq_require,
      require_eq_ok_iff.mpr opens, ok_bind, constraints fun index => satisfied _, ok_bind,
      folded.check_eq_require, require_eq_ok_iff.mpr balances]
  | error failure =>
    cases failure with
    | fault breach => exact reports.elim
    | refused reason =>
      cases reason with
      | gate cell =>
        obtain ⟨violated, first⟩ := reports
        rw [checkGates_eq_error violated first, error_bind]
      | commitment cell =>
        obtain ⟨multiply, rfl, fails⟩ := reports
        rw [gates multiply, ok_bind, Wires.checkCommitment_eq_require, require_of_not fails,
          error_bind]
        rfl
      | constraint index =>
        obtain ⟨multiply, opens, violated, first⟩ := reports
        rw [gates multiply, ok_bind, Wires.checkCommitment_eq_require,
          require_eq_ok_iff.mpr opens, ok_bind, checkConstraints_eq_error power fits violated first,
          error_bind]
      | aggregation =>
        obtain ⟨satisfied, opens, fails⟩ := reports
        rw [gates fun cell => satisfied _, ok_bind, Wires.checkCommitment_eq_require,
          require_eq_ok_iff.mpr opens, ok_bind, constraints fun index => satisfied _, ok_bind,
          folded.check_eq_require, require_of_not fails]

end

/-- Every aggregation of a challenge of the field is one over the field. -/
theorem Aggregation.over_of_ofChallenge {field : PrimeField} {bound : BoundSystem}
    (boundOver : bound.Over field) {y : Residue} (contained : field.Contains y) {pads : ℕ}
    {aggregation : Aggregation} (made : ofChallenge y bound pads = .ok aggregation) :
    aggregation.Over field bound.system.layout := by
  have power : bound.serialPower = ofZMod (bound.serialPower.toZMod field.modulus) :=
    (ofZMod_toZMod boundOver.serialPower).symm
  obtain ⟨z, rfl⟩ := exists_eq_ofZMod contained
  by_cases padded : bound.system.layout.columns + pads < Count.limit
  swap
  · rw [ofChallenge_overflow power padded] at made
    cases made
  by_cases zero : z = 0
  · rw [zero, ofChallenge_zero power padded] at made
    cases made
  rw [ofChallenge_eq_ok power boundOver.system padded zero, Except.ok.injEq] at made
  subst made
  have table := bound.system.layout.cells_lt_powerCount
  constructor
  case sameLayout => rfl
  case rows =>
    simp only [ofClass, List.size_toArray, List.length_map, List.length_range]
    omega
  case powers =>
    intro x member
    simp only [ofClass, List.mem_toArray, List.mem_map] at member
    obtain ⟨k, -, rfl⟩ := member
    rfl
  case columns => simp [ofClass]
  case columnPowers =>
    intro x member
    simp only [ofClass, List.mem_map] at member
    obtain ⟨col, -, rfl⟩ := member
    rfl
  case weights =>
    intro wire cell triple present
    have inside := Grid.inside_of_get? present
    obtain rfl := Option.some.inj ((Grid.get?_tabulate _ inside).symm.trans present)
    rw [classTriple_on]
    rfl
  case constant => rfl

theorem LinearSystem.over_bind (p : Parameters) (layout : Layout) (serial : Residue) :
    ((onLayout p layout).bind serial).Over p.field where
  system := fits_onLayout p layout
  serialPower := by
    rw [serialPower_bind]
    rfl

/-- The check of wires over a field has exactly the outcome that holds of the relations: the first
    gate, row by row, that does not multiply; else a last product that is not the commitment; else
    the first checked constraint that does not hold; else a folded equation that does not hold; and
    it succeeds exactly if there is none of these. The aggregation need not be made from the same
    constraints. -/
theorem check_eq_iff_reports {field : PrimeField} {bound : BoundSystem}
    (boundOver : bound.Over field) {wires : Wires} (sameLayout : wires.layout = bound.system.layout)
    (ofField : wires.Over field) {aggregation : Aggregation}
    (folded : aggregation.Over field bound.system.layout) (commitment : Residue)
    (outcome : Attempt CheckError Unit) :
    bound.check wires commitment aggregation = outcome ↔
      bound.Reports field.modulus wires commitment aggregation outcome := by
  obtain ⟨V, rfl⟩ := Wires.exists_eq_ofClasses sameLayout ofField
  constructor
  · rintro rfl
    obtain ⟨outcome, reports⟩ :=
      exists_reports bound bound.system.layout V commitment aggregation
    rwa [check_eq_of_reports boundOver folded reports]
  · exact check_eq_of_reports boundOver folded

/-- Two gates do not multiply, and the relations are folded for another serial number. -/
theorem check_eq_iff_reports_seven :
    let field := Parameters.seven.field
    let system := LinearSystem.onLayout .seven .seven
    let bound := system.bind (field.residue 2)
    let wires := Wires.ofClasses Layout.seven (setClass (setClass honestSeven .c 5 1) .b 1 3)
    ∃ aggregation, Aggregation.ofChallenge (field.residue 4) (system.bind (field.residue 3)) 1
        = .ok aggregation ∧
      bound.check wires (field.residue 3) aggregation = .error (.refused (.gate ⟨0, 1⟩)) ∧
      bound.Violated wires (.gate ⟨0, 1⟩) ∧
      ∀ other, bound.Violated wires (.gate other) → ⟨0, 1⟩ = other ∨ Cell.Precedes ⟨0, 1⟩ other := by
  intro field system bound wires
  have four : field.residue 4 = ofZMod (4 : ZMod Parameters.seven.field.modulus) := by decide
  have nonzero : (4 : ZMod Parameters.seven.field.modulus) ≠ 0 := by decide
  have padded : system.layout.columns + 1 < Count.limit := by decide
  obtain ⟨folded, made⟩ : ∃ folded, Aggregation.ofChallenge (field.residue 4)
      (system.bind (field.residue 3)) 1 = .ok folded := by
    rw [four]
    exact ⟨_, Aggregation.ofChallenge_eq_ok
      (LinearSystem.serialPower_bind .seven .seven (field.residue 3))
      (LinearSystem.fits_onLayout .seven .seven) padded nonzero⟩
  have gates : wires.checkGates = .error (.refused (.gate ⟨0, 1⟩)) := by decide +kernel
  have checked : bound.check wires (field.residue 3) folded
      = .error (.refused (.gate ⟨0, 1⟩)) := by
    rw [BoundSystem.check, gates, error_bind]
  have overField : folded.Over field system.layout :=
    Aggregation.over_of_ofChallenge (LinearSystem.over_bind .seven .seven (field.residue 3))
      (field.contains_residue 4) made
  have reports := (check_eq_iff_reports (LinearSystem.over_bind .seven .seven (field.residue 2))
    rfl (Wires.over_ofClasses _) overField (field.residue 3) _).mp checked
  exact ⟨folded, made, checked, reports⟩

end CoinSpend
