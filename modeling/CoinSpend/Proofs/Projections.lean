import CoinSpend.Constraint
import CoinSpend.Proofs.SpendRelations

/-!
# Projections by column

A projection pushes every term of a row into the column of its wire, so that it is given by the
entries of each column: the constraints with a term on the cell, in their order. For the systems
that are built every column is there, whatever row is asked for.
-/

namespace CoinSpend

/-- A pass that adds entries behind those of some keys adds for every key all of its entries in
    their order. -/
theorem foldlM_append {ε α β γ κ : Type} {l : List α} {f : β → α → Except ε β}
    (rep : (κ → List γ) → β) (t : α → κ → List γ)
    (h : ∀ F, ∀ a ∈ l, f (rep F) a = .ok (rep fun k => F k ++ t a k)) (F : κ → List γ) :
    l.foldlM f (rep F) = .ok (rep fun k => F k ++ l.flatMap fun a => t a k) := by
  rw [foldlM_rep rep (fun F a k => F k ++ t a k) h]
  congr 2
  clear h
  induction l generalizing F with
  | nil => simp
  | cons a l ih =>
    rw [List.foldl_cons, ih]
    simp only [List.flatMap_cons, List.append_assoc]

private theorem flatMap_singleton_if {α γ : Type} (l : List α) (P : α → Prop) [DecidablePred P]
    (f : α → γ) :
    (l.flatMap fun a => if P a then [f a] else []) = (l.filter fun a => P a).map f := by
  induction l with
  | nil => rfl
  | cons a l ih =>
    rw [List.flatMap_cons, ih]
    by_cases holds : P a
    · simp [holds]
    · simp [holds]

namespace Projection

/-- The projection with the given entries in every column. -/
def ofColumns (columns : ℕ) (F : ℕ → List ColumnEntry) : Projection :=
  ((List.range columns).map fun col => (F col).toArray).toArray

theorem ofColumns_empty (columns : ℕ) :
    ofColumns columns (fun _ => []) = Array.replicate columns #[] := by
  apply Array.ext
  · simp [ofColumns]
  · intro i _ _
    simp [ofColumns]

theorem getElem?_ofColumns {columns col : ℕ} (below : col < columns) (F : ℕ → List ColumnEntry) :
    (ofColumns columns F)[col]? = some (F col).toArray := by
  simp [ofColumns, below]

theorem push_ofColumns {columns col : ℕ} (below : col < columns) (F : ℕ → List ColumnEntry)
    (e : ColumnEntry) :
    Projection.push (ofColumns columns F) col e
      = .ok (ofColumns columns fun k => F k ++ if k = col then [e] else []) := by
  have present : col < (ofColumns columns F).size := by simpa [ofColumns] using below
  rw [Projection.push, if_pos present]
  congr 1
  apply Array.ext
  · simp [ofColumns]
  · intro k _ _
    by_cases here : col = k
    · subst here
      simp [ofColumns]
    · simp [ofColumns, here, Ne.symm here]

end Projection

namespace LinearSystem

variable {system : LinearSystem} {q : ℕ}

/-- What a constraint with the given number has on a cell of a wire. -/
def entriesOf (wire : Wire) (cell : Cell) (constraint : Constraint) (index : ℕ) :
    List ColumnEntry :=
  ((constraint.termsOnWire wire).filter fun term => term.cell = cell).map fun term =>
    ⟨index, term.coefficient⟩

theorem mem_entriesOf {wire : Wire} {cell : Cell} {c : Constraint} {i : ℕ} {e : ColumnEntry} :
    e ∈ entriesOf wire cell c i ↔ e.constraint = i ∧
      ∃ term ∈ c.terms, term.wire = wire ∧ term.cell = cell ∧ term.coefficient = e.coefficient := by
  simp only [entriesOf, Constraint.termsOnWire, List.mem_map, List.mem_filter, beq_iff_eq,
    decide_eq_true_eq]
  constructor
  · rintro ⟨term, ⟨⟨kept, sameWire⟩, sameCell⟩, rfl⟩
    exact ⟨rfl, term, kept, sameWire, sameCell, rfl⟩
  · rintro ⟨rfl, term, kept, sameWire, sameCell, value⟩
    refine ⟨term, ⟨⟨kept, sameWire⟩, sameCell⟩, ?_⟩
    rw [value]

/-- What all constraints have on a cell of a wire, in their order. -/
def columnEntries (system : LinearSystem) (wire : Wire) (cell : Cell) : List ColumnEntry :=
  system.constraints.toList.zipIdx.flatMap fun numbered =>
    entriesOf wire cell numbered.1 numbered.2

/-- The terms of a constraint, each pushed into the column of its cell. -/
private theorem pushTerms_eq_ok {c : Constraint} (fits : c.Fits q system.layout) (wire : Wire)
    (row index : ℕ) (F : ℕ → List ColumnEntry) :
    (c.termsOnWire wire).foldlM (fun projection term =>
        if term.cell.row = row then projection.push term.cell.col ⟨index, term.coefficient⟩
        else .ok projection) (Projection.ofColumns system.layout.columns F)
      = .ok (.ofColumns system.layout.columns fun col =>
          F col ++ entriesOf wire ⟨row, col⟩ c index) := by
  rw [foldlM_append (Projection.ofColumns system.layout.columns)
    (fun term col => if term.cell = ⟨row, col⟩ then [⟨index, term.coefficient⟩] else [])]
  · simp only [flatMap_singleton_if, entriesOf]
  · intro F term member
    have inside := fits.cell term (List.mem_of_mem_filter member)
    by_cases here : term.cell.row = row
    · have column (col : ℕ) : term.cell = ⟨row, col⟩ ↔ col = term.cell.col := by
        rw [← here]
        constructor
        · intro same
          exact (congrArg Cell.col same).symm
        · intro same
          rw [same]
      rw [if_pos here, Projection.push_ofColumns inside.2]
      simp only [column]
    · have never (col : ℕ) : term.cell ≠ ⟨row, col⟩ := fun same => here (congrArg Cell.row same)
      simp only [if_neg here, never, if_false, List.append_nil]

/-- Every projection of a system whose terms lie in its grid has all columns. -/
theorem project_eq_ok (fits : system.Fits q) (wire : Wire) (row : ℕ) :
    system.project wire row
      = .ok (.ofColumns system.layout.columns fun col =>
          system.columnEntries wire ⟨row, col⟩) := by
  rw [project, ← Projection.ofColumns_empty,
    foldlM_append (Projection.ofColumns system.layout.columns)
      (fun numbered col => entriesOf wire ⟨row, col⟩ numbered.1 numbered.2)]
  · rfl
  · intro F numbered member
    have present := List.fst_mem_of_mem_zipIdx member
    exact pushTerms_eq_ok (fits.row _ (Array.mem_toList_iff.mp present)) wire row _ F

end LinearSystem

end CoinSpend
