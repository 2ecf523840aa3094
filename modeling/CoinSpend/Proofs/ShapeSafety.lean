import CoinSpend.Proofs.CacheHistories
import CoinSpend.Proofs.CompactKeys
import CoinSpend.Proofs.GridHistories
import CoinSpend.Proofs.MintedCoins
import CoinSpend.Proofs.Projections

/-!
# Safety of every shape

Whatever shape the parameters have, the checks of its layout decide what becomes of it. Without a
layout, building, the cache and the wires refuse for the reason of the layout. With one, no later
step meets a fault: every count is made within the words, there are as many constraints as expected,
every cell, every constraint and every power is found, and all operands are of one field.

Memory is taken to be there. This matters for one count only, that of the terms of all constraints,
which no check of a layout bounds: it is made for a report, of a table that has been stored.
-/

namespace CoinSpend

open Residue

/-! ## Reports -/

/-- The constraints of a layout can be stored: each takes eight bytes at least, and no table has
    `2 ^ 63` bytes. -/
def Layout.Storable (layout : Layout) : Prop :=
  layout.constraintCount * 8 < 2 ^ 63

instance (layout : Layout) : Decidable layout.Storable :=
  inferInstanceAs (Decidable (_ < _))

theorem Constraint.length_ofTerms_le (kind : ConstraintFamily) (terms : List Term)
    (constant : Residue) : (ofTerms kind terms constant).terms.length ≤ terms.length :=
  List.length_filter_le _ _

/-- No constraint has more than two terms. -/
theorem length_terms_le_two {q : ℕ} [NeZero q] {layout : Layout} {h : ZMod q} {c : Constraint}
    (member : c ∈ systemRows layout h) : c.terms.length ≤ 2 := by
  obtain ⟨i, row⟩ := List.getElem?_of_mem member
  refine forall_systemRows (motive := fun _ c => c.terms.length ≤ 2) h
    ?complement ?product ?recurrence ?anchor ?chain ?selection row
  case complement => exact fun k _ => Constraint.length_ofTerms_le _ _ _
  case product => exact fun k _ => (Constraint.length_ofTerms_le _ _ _).trans one_le_two
  case recurrence => exact fun k _ => Constraint.length_ofTerms_le _ _ _
  case anchor => exact Constraint.length_ofTerms_le _ _ _
  case chain => exact fun k _ => Constraint.length_ofTerms_le _ _ _
  case selection => exact (Constraint.length_ofTerms_le _ _ _).trans one_le_two

namespace LinearSystem

/-- The terms are counted from any number on, if there is room for two of each constraint. -/
theorem foldlM_countTerms {constraints : List Constraint} {counted : ℕ}
    (sparse : ∀ c ∈ constraints, c.terms.length ≤ 2)
    (room : counted + 2 * constraints.length < Count.limit) :
    constraints.foldlM (fun sum constraint => Count.add sum constraint.terms.length) counted
      = .ok (counted + (constraints.flatMap fun c => c.terms).length) := by
  induction constraints generalizing counted with
  | nil => rfl
  | cons c constraints ih =>
    obtain ⟨head, tail⟩ := List.forall_mem_cons.mp sparse
    rw [List.length_cons] at room
    rw [List.foldlM_cons, Count.add_eq_ok (by omega), ok_bind, ih tail (by omega),
      List.flatMap_cons, List.length_append, Nat.add_assoc]

theorem countTerms_eq_ok {q : ℕ} [NeZero q] {layout : Layout} (storable : layout.Storable)
    (h : ZMod q) :
    countTerms (systemRows layout h)
      = .ok ((systemRows layout h).flatMap fun c => c.terms).length := by
  have room : 0 + 2 * (systemRows layout h).length < Count.limit := by
    rw [length_systemRows]
    unfold Layout.Storable at storable
    have limit : Count.limit = 2 ^ 64 := rfl
    omega
  rw [countTerms, foldlM_countTerms (fun c member => length_terms_le_two member) room, Nat.zero_add]

variable {p : Parameters} {reported : Bool}

/-- A system is built on every layout, and reported if its constraints can be stored. -/
theorem build_eq_ok {layout : Layout} (accepted : Layout.ofShape p.shape = .ok layout)
    (storable : reported = true → layout.Storable) :
    build reported p = .ok (onLayout p layout) := by
  rw [build_of_layout accepted]
  cases reported with
  | false => rfl
  | true =>
    have counted := countTerms_eq_ok (storable rfl) p.hClass
    simp only [if_true, counted, Attempt.liftM_ok, ok_bind, pure_eq_ok]

end LinearSystem

/-! ## What becomes of a shape -/

theorem Layout.ofShape_ne_fault (shape : Shape) (breach : Fault) :
    ofShape shape ≠ .error (.fault breach) := by
  intro faulted
  rcases ofShape_cases shape with ⟨error, -, refused⟩ | ⟨layout, -, accepted, -⟩
  · cases refused.symm.trans faulted
  · cases accepted.symm.trans faulted

theorem Wires.assign_eq_refuse {p : Parameters} {error : LayoutError}
    (refused : Layout.ofShape p.shape = .refuse error) (w : Witness) :
    Wires.assign w p = .refuse (.layout error) := by
  rw [assign, refused]
  rfl

/-- Whatever parameters are decoded and whatever a cache was used for before, the layout of their
    shape is made or refused without a fault. A shape without a layout is refused by building, by
    the cache and by the wires, for the reason that the layout is refused for. With a layout whose
    constraints can be stored if they are reported, every place in its grid is found; the system is
    built, the cache hands it out, and it is projected to every row; and the wires are assigned and
    pass the check under every challenge that is admitted, unless the randomness has too many
    bits. -/
theorem safe_for_every_shape {κ : Type} [DecidableEq κ] {encode : Parameters → Except String κ}
    {key : Parameters → κ} (encodes : ∀ p, encode p = .ok (key p)) (injective : key.Injective)
    (reported : Bool) (p : Parameters) (history : List CacheCall) (serial randomness : Residue) :
    let cached := SystemCache.answer encode reported history p
    let w := Witness.ofOpening serial randomness
    (∀ breach, Layout.ofShape p.shape ≠ .error (.fault breach)) ∧
    (∀ error, Layout.ofShape p.shape = .refuse error →
      LinearSystem.build reported p = .refuse error ∧ cached = .refuse (.layout error) ∧
      Wires.assign w p = .refuse (.layout error)) ∧
    ∀ layout, Layout.ofShape p.shape = .ok layout → (reported = true → layout.Storable) →
      Grid.Addressable layout.rows layout.columns ∧
      ∃ system, LinearSystem.build reported p = .ok system ∧
        (∃ shared, cached = .ok shared ∧ shared.system = system) ∧
        (∀ wire row, ∃ projection, system.project wire row = .ok projection) ∧
        (layout.serialSize < bitLength randomness.value →
          Wires.assign w p
            = .refuse (.tooWide (bitLength randomness.value) layout.serialSize)) ∧
        (bitLength randomness.value ≤ layout.serialSize →
          ∃ circuit, Circuit.ofWitness p system w = .ok circuit ∧
            Wires.assign w p = .ok circuit.wires ∧ circuit.AnswersAll p.field) := by
  intro cached w
  refine ⟨Layout.ofShape_ne_fault p.shape, ?_, ?_⟩
  · intro error refused
    have failed : LinearSystem.build reported p = .refuse error :=
      LinearSystem.build_of_error refused reported
    exact ⟨failed, SystemCache.answer_of_refuse encodes injective failed history,
      Wires.assign_eq_refuse refused w⟩
  · intro layout accepted storable
    have size : layout.serialSize = p.serialSize :=
      (Layout.describes_of_ofShape accepted).serialSize
    have built := LinearSystem.build_eq_ok accepted storable
    refine ⟨Grid.addressable layout.rows_lt_limit layout.cells_lt_limit, _, built,
      SystemCache.answer_of_ok encodes injective built history, ?_, ?_, ?_⟩
    · intro wire row
      exact ⟨_, LinearSystem.project_eq_ok (LinearSystem.fits_onLayout p layout) wire row⟩
    · intro wide
      exact Wires.assign_too_wide accepted wide
    · intro narrow
      rw [size] at narrow
      let coin : Coin := ⟨serial, randomness⟩
      have short : coin.randomness.value < 2 ^ p.serialSize :=
        Nat.not_le.mp (mt lt_bitLength_iff.mpr (Nat.not_lt.mpr narrow))
      obtain ⟨circuit, made, assigned, -, -, answers⟩ := Coin.exists_circuit accepted short
      exact ⟨circuit, made, assigned, answers⟩

/-- Parameters with a single row of as many cells as there can be. -/
def Parameters.widest : Parameters :=
  { Parameters.seven with
    shape := ⟨18446744073709551615, 1, 3, 0⟩
    usable_shape := by decide }

/-- In a cache with compact keys, where what is built is reported, the powers for the widest shape
    cannot be counted. For two rows of three cells a row that is not there is projected, and the
    largest randomness passes. -/
theorem safe_for_every_shape_seven :
    let encode : Parameters → Except String (List UInt8) := fun p => .ok p.compactKey
    let history : List CacheCall := [.get .seven, .clear, .get .widest]
    let six := Parameters.seven.field.residue 6
    let overflow := LayoutError.countOverflow Parameters.widest.shape
    (∀ p, encode p = .ok p.compactKey) ∧
      LinearSystem.build true .widest = .refuse overflow ∧
      SystemCache.answer encode true history .widest = .refuse (.layout overflow) ∧
      Wires.assign (.ofOpening six six) .widest = .refuse (.layout overflow) ∧
      Layout.seven.Storable ∧
      ∃ system projection circuit aggregation,
        LinearSystem.build true .seven = .ok system ∧
        system.project .a 1000 = .ok projection ∧
        Circuit.ofWitness .seven system (.ofOpening six six) = .ok circuit ∧
        circuit.aggregate (Parameters.seven.field.residue 4) = .ok aggregation ∧
        circuit.check aggregation = .ok () := by
  intro encode history six overflow
  have encodes (p : Parameters) : encode p = .ok p.compactKey := rfl
  have storable : Layout.seven.Storable := by decide
  have safe (p : Parameters) :=
    safe_for_every_shape encodes Parameters.compactKey_injective true p history six six
  obtain ⟨failed, uncached, unassigned⟩ := (safe .widest).2.1 overflow (by decide)
  obtain ⟨-, system, built, -, projected, -, assigned⟩ :=
    (safe .seven).2.2 .seven (by decide) fun _ => storable
  obtain ⟨projection, projects⟩ := projected .a 1000
  obtain ⟨circuit, made, -, answers⟩ := assigned (by decide)
  obtain ⟨aggregation, folded, passed⟩ :=
    answers.nonzero (Parameters.seven.field.residue 4) rfl (by decide)
  exact ⟨encodes, failed, uncached, unassigned, storable, system, projection, circuit, aggregation,
    built, projects, made, folded, passed⟩

end CoinSpend
