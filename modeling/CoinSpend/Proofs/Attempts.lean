import CoinSpend.Fault
import Mathlib.Algebra.BigOperators.Group.List.Basic

/-!
# Runs of attempts

What the passes over lists come to when it is known what every step of them answers. A pass whose
steps all answer is the pure pass. A pass that only checks answers exactly when every step does,
and fails with the first failure otherwise.
-/

namespace CoinSpend

variable {ε δ α β γ : Type}

@[simp] theorem ok_bind (a : α) (f : α → Except ε β) : ((.ok a : Except ε α) >>= f) = f a := rfl

@[simp] theorem error_bind (e : ε) (f : α → Except ε β) :
    ((.error e : Except ε α) >>= f) = .error e := rfl

@[simp] theorem pure_eq_ok (a : α) : (pure a : Except ε α) = .ok a := rfl

@[simp] theorem throw_eq_error (e : ε) : (throw e : Except ε α) = .error e := rfl

theorem bind_eq_ok_iff {x : Except ε α} {f : α → Except ε β} {b : β} :
    (x >>= f) = .ok b ↔ ∃ a, x = .ok a ∧ f a = .ok b := by
  cases x <;> simp

theorem map_eq_ok_iff {x : Except ε α} {f : α → β} {b : β} :
    x.map f = .ok b ↔ ∃ a, x = .ok a ∧ f a = b := by
  cases x <;> simp [Except.map]

theorem map_eq_error_iff {x : Except ε α} {f : α → β} {e : ε} :
    x.map f = .error e ↔ x = .error e := by
  cases x <;> simp [Except.map]

namespace Attempt

@[simp] theorem liftM_ok (a : α) : (liftM (.ok a : Checked α) : Attempt ε α) = .ok a := rfl

@[simp] theorem liftM_error (breach : Fault) :
    (liftM (.error breach : Checked α) : Attempt ε α) = .error (.fault breach) := rfl

theorem liftM_eq_ok_iff {x : Checked α} {a : α} :
    (liftM x : Attempt ε α) = .ok a ↔ x = .ok a := by
  cases x <;> simp

theorem refuse_inj {e e' : ε} : (refuse e : Attempt ε α) = refuse e' ↔ e = e' := by
  simp [refuse]

@[simp] theorem ok_ne_refuse (a : α) (e : ε) : (.ok a : Attempt ε α) ≠ refuse e := by
  simp [refuse]

@[simp] theorem restate_ok (f : ε → δ) (a : α) : restate f (.ok a) = .ok a := rfl

@[simp] theorem restate_eq_ok_iff {f : ε → δ} {x : Attempt ε α} {a : α} :
    restate f x = .ok a ↔ x = .ok a := by
  cases x <;> simp [restate, Except.mapError]

theorem restate_refuse (f : ε → δ) (e : ε) :
    restate f (refuse e : Attempt ε α) = refuse (f e) := rfl

end Attempt

/-! ## Tables -/

theorem entry_eq_ok_iff {table : Array α} {i : ℕ} {value : α} :
    entry table i = .ok value ↔ table[i]? = some value := by
  unfold entry
  cases table[i]? <;> simp

theorem getElem?_map_range (f : ℕ → α) {n k : ℕ} (h : k < n) :
    ((List.range n).map f)[k]? = some (f k) := by
  simp [h]

theorem entry_range (f : ℕ → α) {n k : ℕ} (h : k < n) :
    entry ((List.range n).map f).toArray k = .ok (f k) := by
  rw [entry_eq_ok_iff, List.getElem?_toArray, getElem?_map_range f h]

/-! ## Passes whose steps all answer -/

theorem mapM_eq_ok {l : List α} {f : α → Except ε β} {g : α → β}
    (h : ∀ a ∈ l, f a = .ok (g a)) : l.mapM f = .ok (l.map g) := by
  induction l with
  | nil => rfl
  | cons a l ih =>
    have head := h a List.mem_cons_self
    have tail := ih fun b member => h b (List.mem_cons_of_mem a member)
    rw [List.mapM_cons, head, ok_bind, tail]
    rfl

/-- Every state of the pass is given by `rep`, and `g` says what a step does to what gives it. -/
theorem foldlM_rep {l : List α} {f : β → α → Except ε β} (rep : γ → β) (g : γ → α → γ)
    (h : ∀ c, ∀ a ∈ l, f (rep c) a = .ok (rep (g c a))) (c : γ) :
    l.foldlM f (rep c) = .ok (rep (l.foldl g c)) := by
  induction l generalizing c with
  | nil => rfl
  | cons a l ih =>
    have head := h c a List.mem_cons_self
    rw [List.foldlM_cons, head, ok_bind, List.foldl_cons]
    exact ih (fun c b member => h c b (List.mem_cons_of_mem a member)) _

/-- A pass that adds something at every step adds the sum. -/
theorem foldlM_add [AddCommMonoid γ] {l : List α} {f : β → α → Except ε β} (rep : γ → β)
    (t : α → γ) (h : ∀ c, ∀ a ∈ l, f (rep c) a = .ok (rep (c + t a))) (c : γ) :
    l.foldlM f (rep c) = .ok (rep (c + (l.map t).sum)) := by
  rw [foldlM_rep rep (fun c a => c + t a) h]
  congr 2
  clear h
  induction l generalizing c with
  | nil => simp
  | cons a l ih => rw [List.foldl_cons, ih, List.map_cons, List.sum_cons, add_assoc]

theorem zipIdx_map_range (n : ℕ) (f : ℕ → α) :
    ((List.range n).map f).zipIdx = (List.range n).map fun i => (f i, i) := by
  apply List.ext_getElem
  · simp
  · intro i _ _
    simp

/-- A pass that answered took every step. -/
theorem foldlM_steps {l : List α} {f : β → α → Except ε β} {b last : β}
    (h : l.foldlM f b = .ok last) {a : α} (member : a ∈ l) :
    ∃ before after, f before a = .ok after := by
  induction l generalizing b with
  | nil => cases member
  | cons head l ih =>
    rw [List.foldlM_cons, bind_eq_ok_iff] at h
    obtain ⟨next, step, rest⟩ := h
    rcases List.mem_cons.mp member with rfl | member
    · exact ⟨b, next, step⟩
    · exact ih rest member

/-! ## Passes that only check -/

theorem forM_eq_ok_iff {l : List α} {f : α → Except ε Unit} :
    l.forM f = .ok () ↔ ∀ a ∈ l, f a = .ok () := by
  induction l with
  | nil => simp
  | cons a l ih =>
    rw [List.forM_eq_forM] at ih ⊢
    rw [List.forM_cons, bind_eq_ok_iff, List.forall_mem_cons, ← ih]
    constructor
    · rintro ⟨⟨⟩, head, tail⟩
      exact ⟨head, tail⟩
    · rintro ⟨head, tail⟩
      exact ⟨(), head, tail⟩

theorem forM_congr {l : List α} {f g : α → Except ε Unit} (h : ∀ a ∈ l, f a = g a) :
    l.forM f = l.forM g := by
  induction l with
  | nil => rfl
  | cons a l ih =>
    have head := h a List.mem_cons_self
    have tail := ih fun b member => h b (List.mem_cons_of_mem a member)
    rw [List.forM_eq_forM] at tail ⊢
    rw [List.forM_cons, List.forM_cons, head, tail]

theorem forM_range_eq_ok_iff {n : Nat} {f : Nat → Except ε Unit} :
    (List.range n).forM f = .ok () ↔ ∀ i < n, f i = .ok () := by
  simp only [forM_eq_ok_iff, List.mem_range]

private theorem forM_range_succ (n : Nat) (f : Nat → Except ε Unit) :
    (List.range (n + 1)).forM f = ((List.range n).forM f >>= fun _ => f n) := by
  have last : forM [n] f = f n := by
    rw [List.forM_cons, List.forM_nil]
    exact bind_pure _
  rw [List.forM_eq_forM, List.range_succ, List.forM_append, last]

/-- The failure of a check of all numbers below `n` is that of the first number that fails. -/
theorem forM_range_eq_error_iff {n : Nat} {f : Nat → Except ε Unit} {e : ε} :
    (List.range n).forM f = .error e ↔
      ∃ i < n, (∀ j < i, f j = .ok ()) ∧ f i = .error e := by
  induction n with
  | zero => simp
  | succ n ih =>
    rw [forM_range_succ]
    constructor
    · intro failed
      cases before : (List.range n).forM f with
      | ok u =>
        rw [before, ok_bind] at failed
        exact ⟨n, Nat.lt_succ_self n, forM_range_eq_ok_iff.mp before, failed⟩
      | error e' =>
        rw [before, error_bind] at failed
        obtain ⟨i, below, first, here⟩ := ih.mp (before.trans failed)
        exact ⟨i, Nat.lt_succ_of_lt below, first, here⟩
    · rintro ⟨i, below, first, here⟩
      rcases Nat.lt_succ_iff_lt_or_eq.mp below with below | rfl
      · rw [ih.mpr ⟨i, below, first, here⟩, error_bind]
      · rw [forM_range_eq_ok_iff.mpr first, ok_bind, here]

/-- Asks for a property, and fails without it. -/
def require (P : Prop) [Decidable P] (e : ε) : Except ε Unit :=
  if P then .ok () else .error e

section

variable {P : Prop} [Decidable P] {e : ε}

theorem require_eq_ok_iff : require P e = .ok () ↔ P := by
  unfold require
  split
  case isTrue holds => simp [holds]
  case isFalse fails => simp [fails]

theorem require_of_not (fails : ¬P) : require P e = .error e :=
  if_neg fails

theorem require_cases : require P e = .ok () ∨ require P e = .error e := by
  by_cases holds : P
  · exact Or.inl (require_eq_ok_iff.mpr holds)
  · exact Or.inr (require_of_not holds)

theorem require_congr {Q : Prop} [Decidable Q] (same : P ↔ Q) : require P e = require Q e := by
  unfold require
  simp only [same]

end

section

variable {n : Nat} {P : Nat → Prop} [DecidablePred P] {failure : Nat → ε}

theorem forM_require_eq_ok_iff :
    (List.range n).forM (fun i => require (P i) (failure i)) = .ok () ↔ ∀ i < n, P i := by
  simp only [forM_range_eq_ok_iff, require_eq_ok_iff]

theorem forM_require_cases :
    (List.range n).forM (fun i => require (P i) (failure i)) = .ok () ∨
      ∃ i, (List.range n).forM (fun i => require (P i) (failure i)) = .error (failure i) := by
  cases verdict : (List.range n).forM fun i => require (P i) (failure i) with
  | ok u => exact Or.inl rfl
  | error e =>
    obtain ⟨i, -, -, failed⟩ := forM_range_eq_error_iff.mp verdict
    rcases require_cases (P := P i) (e := failure i) with passed | reported
    · rw [passed] at failed
      cases failed
    · obtain rfl := Except.error.inj (reported.symm.trans failed)
      exact Or.inr ⟨i, rfl⟩

/-- The first number without the property is reported. -/
theorem forM_require_eq_error {i : Nat} (below : i < n) (first : ∀ j < i, P j) (fails : ¬P i) :
    (List.range n).forM (fun i => require (P i) (failure i)) = .error (failure i) := by
  refine forM_range_eq_error_iff.mpr ⟨i, below, ?_, require_of_not fails⟩
  intro j before
  exact require_eq_ok_iff.mpr (first j before)

end

end CoinSpend
