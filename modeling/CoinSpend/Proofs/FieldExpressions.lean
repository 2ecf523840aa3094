import CoinSpend.Proofs.ConstraintRows

/-!
# Expressions over residues

An expression is built from numbers by the operations on residues. Within one field its residue is
that of the integer which the same expression stands for, whatever the modulus is. If its numbers
are taken into fields of two moduli, the two meet in some sum, difference or product, and that one
faults.
-/

namespace CoinSpend

open Residue

/-- The numbers that can be taken into a field. -/
inductive FieldConstant where
  | number (n : ℕ)
  | word (n : UInt64)
  | signed (z : Int64)
  | zero
  | one

namespace FieldConstant

/-- The class of a number in a field. -/
def residueIn (field : PrimeField) : FieldConstant → Residue
  | number n => field.residue n
  | word n => field.residue n.toNat
  | signed z => field.ofInt z.toInt
  | zero => field.zero
  | one => field.one

/-- The number as an integer. -/
def toInt : FieldConstant → ℤ
  | number n => n
  | word n => n.toNat
  | signed z => z.toInt
  | zero => 0
  | one => 1

end FieldConstant

/-- The residue operations on a single residue. The first three only take the field from it. -/
inductive UnaryFieldOp where
  | zeroLike
  | oneLike
  | wordLike (n : UInt64)
  | neg
  | square
  | pow (exponent : ℕ)
  | powWord (exponent : UInt64)

namespace UnaryFieldOp

/-- The operation on residues. -/
def apply : UnaryFieldOp → Residue → Residue
  | zeroLike, x => x.zero
  | oneLike, x => x.one
  | wordLike n, x => x.embed n.toNat
  | neg, x => x.neg
  | square, x => x.square
  | pow exponent, x => x.pow exponent
  | powWord exponent, x => x.pow exponent.toNat

/-- The operation on integers. -/
def onInt : UnaryFieldOp → ℤ → ℤ
  | zeroLike, _ => 0
  | oneLike, _ => 1
  | wordLike n, _ => n.toNat
  | neg, a => -a
  | square, a => a * a
  | pow exponent, a => a ^ exponent
  | powWord exponent, a => a ^ exponent.toNat

end UnaryFieldOp

namespace FieldOp

/-- The operation on residues. -/
def apply : FieldOp → Residue → Residue → Checked Residue
  | add => Residue.add
  | sub => Residue.sub
  | mul => Residue.mul

/-- The operation on integers. -/
def onInt : FieldOp → ℤ → ℤ → ℤ
  | add, a, b => a + b
  | sub, a, b => a - b
  | mul, a, b => a * b

end FieldOp

/-- Expressions over residues, in which every number names the field that it is taken into. -/
inductive FieldExpr where
  | constant (field : PrimeField) (number : FieldConstant)
  | unary (op : UnaryFieldOp) (operand : FieldExpr)
  | binary (op : FieldOp) (left right : FieldExpr)

namespace FieldExpr

/-- The residue of an expression, operands from left to right. -/
def eval : FieldExpr → Checked Residue
  | constant field number => .ok (number.residueIn field)
  | unary op operand => do return op.apply (← operand.eval)
  | binary op left right => do op.apply (← left.eval) (← right.eval)

/-- The integer that an expression stands for. -/
def toInt : FieldExpr → ℤ
  | constant _ number => number.toInt
  | unary op operand => op.onInt operand.toInt
  | binary op left right => op.onInt left.toInt right.toInt

/-- The fields that the numbers of an expression are taken into. -/
def fields : FieldExpr → List PrimeField
  | constant field _ => [field]
  | unary _ operand => operand.fields
  | binary _ left right => left.fields ++ right.fields

/-- The operations with two operands in an expression. -/
def binaryOps : FieldExpr → List FieldOp
  | constant _ _ => []
  | unary _ operand => operand.binaryOps
  | binary op left right => op :: (left.binaryOps ++ right.binaryOps)

end FieldExpr

/-! ## Within one field -/

theorem PrimeField.ofInt_eq (field : PrimeField) (z : ℤ) :
    field.ofInt z = ofZMod (z : ZMod field.modulus) := by
  rw [ofInt, residue_eq]
  split
  case isTrue negative =>
    rw [neg_ofZMod, ← Int.cast_natCast, Int.ofNat_natAbs_of_nonpos (Int.le_of_lt negative),
      Int.cast_neg, neg_neg]
  case isFalse nonnegative =>
    rw [← Int.cast_natCast, Int.natAbs_of_nonneg (Int.not_lt.mp nonnegative)]

theorem FieldConstant.residueIn_eq (field : PrimeField) (number : FieldConstant) :
    number.residueIn field = ofZMod (number.toInt : ZMod field.modulus) := by
  cases number with
  | number n => simp [residueIn, toInt, field.residue_eq]
  | word n => simp [residueIn, toInt, field.residue_eq]
  | signed z => exact field.ofInt_eq z.toInt
  | zero => simp [residueIn, toInt, field.zero_eq]
  | one => simp [residueIn, toInt, field.one_eq]

section

variable {q : ℕ} [NeZero q]

theorem UnaryFieldOp.apply_ofZMod (op : UnaryFieldOp) (a : ℤ) :
    op.apply (ofZMod (a : ZMod q)) = ofZMod (op.onInt a : ZMod q) := by
  cases op with
  | zeroLike => simp [apply, onInt]
  | oneLike => simp [apply, onInt]
  | wordLike n => simp [apply, onInt]
  | neg => simp [apply, onInt]
  | square => simp [apply, onInt, pow_two]
  | pow exponent => simp [apply, onInt]
  | powWord exponent => simp [apply, onInt]

theorem FieldOp.apply_ofZMod (op : FieldOp) (a b : ℤ) :
    op.apply (ofZMod (a : ZMod q)) (ofZMod (b : ZMod q))
      = .ok (ofZMod (op.onInt a b : ZMod q)) := by
  cases op with
  | add => simp [apply, onInt]
  | sub => simp [apply, onInt]
  | mul => simp [apply, onInt]

namespace FieldExpr

/-- Within one field an expression has the class of its integer. -/
theorem eval_eq_ok {e : FieldExpr} (oneField : ∀ field ∈ e.fields, field.modulus = q) :
    e.eval = .ok (ofZMod (e.toInt : ZMod q)) := by
  induction e with
  | constant field number =>
    obtain rfl := oneField field (List.mem_singleton.mpr rfl)
    exact congrArg Except.ok (number.residueIn_eq field)
  | unary op operand ih =>
    rw [eval, ih oneField, ok_bind, op.apply_ofZMod]
    rfl
  | binary op left right ihLeft ihRight =>
    have ofLeft := ihLeft fun field member => oneField field (List.mem_append_left _ member)
    have ofRight := ihRight fun field member => oneField field (List.mem_append_right _ member)
    rw [eval, ofLeft, ok_bind, ofRight, ok_bind, op.apply_ofZMod]
    rfl

end FieldExpr

end

/-! ## Fields that meet -/

theorem UnaryFieldOp.modulus_apply (op : UnaryFieldOp) (x : Residue) :
    (op.apply x).modulus = x.modulus := by
  cases op with
  | neg =>
    rw [apply, Residue.neg]
    split <;> rfl
  | _ => rfl

/-- Operands of one field have an answer in that field, and all others a fault. -/
theorem FieldOp.apply_cases (op : FieldOp) (x y : Residue) :
    (x.SameField y ∧ ∃ z, op.apply x y = .ok z ∧ z.modulus = x.modulus) ∨
      (¬x.SameField y ∧ op.apply x y = .error (.mixedModuli op)) := by
  by_cases same : x.SameField y
  · refine Or.inl ⟨same, ?_⟩
    cases op with
    | add => exact ⟨_, dif_pos same, rfl⟩
    | sub => exact ⟨_, dif_pos same, rfl⟩
    | mul => exact ⟨_, if_pos same, rfl⟩
  · refine Or.inr ⟨same, ?_⟩
    cases op with
    | add => exact dif_neg same
    | sub => exact dif_neg same
    | mul => exact if_neg same

namespace FieldExpr

/-- An expression that has a residue lies within the field of that residue. -/
theorem modulus_of_eval_eq_ok {e : FieldExpr} {x : Residue} (answer : e.eval = .ok x) :
    ∀ field ∈ e.fields, field.modulus = x.modulus := by
  induction e generalizing x with
  | constant field number =>
    intro field' member
    rw [List.mem_singleton.mp member, ← Except.ok.inj answer, number.residueIn_eq]
    rfl
  | unary op operand ih =>
    obtain ⟨y, ofOperand, applied⟩ := bind_eq_ok_iff.mp answer
    rw [← Except.ok.inj applied, op.modulus_apply]
    exact ih ofOperand
  | binary op left right ihLeft ihRight =>
    obtain ⟨y, ofLeft, rest⟩ := bind_eq_ok_iff.mp answer
    obtain ⟨z, ofRight, applied⟩ := bind_eq_ok_iff.mp rest
    rcases op.apply_cases y z with ⟨same, w, ok, modulus⟩ | ⟨-, fault⟩
    · obtain rfl := Except.ok.inj (ok.symm.trans applied)
      intro field member
      rw [modulus]
      rcases List.mem_append.mp member with inLeft | inRight
      · exact ihLeft ofLeft field inLeft
      · exact (ihRight ofRight field inRight).trans same.symm
    · cases fault.symm.trans applied

/-- An expression that has no residue faults at one of its operations with two operands. -/
theorem exists_of_eval_eq_error {e : FieldExpr} {fault : Fault} (failed : e.eval = .error fault) :
    ∃ op ∈ e.binaryOps, fault = .mixedModuli op := by
  induction e with
  | constant field number => cases failed
  | unary op operand ih =>
    cases ofOperand : operand.eval with
    | error breach =>
      rw [eval, ofOperand, error_bind] at failed
      exact ih (ofOperand.trans failed)
    | ok x =>
      rw [eval, ofOperand, ok_bind] at failed
      cases failed
  | binary op left right ihLeft ihRight =>
    cases ofLeft : left.eval with
    | error breach =>
      rw [eval, ofLeft, error_bind] at failed
      obtain ⟨meeting, member, named⟩ := ihLeft (ofLeft.trans failed)
      exact ⟨meeting, List.mem_cons_of_mem _ (List.mem_append_left _ member), named⟩
    | ok x =>
      cases ofRight : right.eval with
      | error breach =>
        rw [eval, ofLeft, ok_bind, ofRight, error_bind] at failed
        obtain ⟨meeting, member, named⟩ := ihRight (ofRight.trans failed)
        exact ⟨meeting, List.mem_cons_of_mem _ (List.mem_append_right _ member), named⟩
      | ok y =>
        rw [eval, ofLeft, ok_bind, ofRight, ok_bind] at failed
        rcases op.apply_cases x y with ⟨-, z, ok, -⟩ | ⟨-, mixed⟩
        · cases ok.symm.trans failed
        · exact ⟨op, List.mem_cons_self, Except.error.inj (failed.symm.trans mixed)⟩

/-- An expression over one field, however deep, has the canonical representative of its integer. An
    expression over fields of two moduli has no residue: one of its sums, differences and products
    faults for its operands. -/
theorem eval_residue_or_mixed (e : FieldExpr) :
    (∀ field : PrimeField, (∀ field' ∈ e.fields, field'.modulus = field.modulus) →
      ∃ x, e.eval = .ok x ∧ field.Contains x ∧ x.value < field.modulus ∧
        (x.value : ℤ) = e.toInt % field.modulus) ∧
    ((∃ field ∈ e.fields, ∃ field' ∈ e.fields, field.modulus ≠ field'.modulus) →
      ∃ op ∈ e.binaryOps, e.eval = .error (.mixedModuli op)) := by
  refine ⟨?_, ?_⟩
  · intro field oneField
    exact ⟨_, eval_eq_ok oneField, rfl, ZMod.val_lt _, ZMod.val_intCast e.toInt⟩
  · rintro ⟨field, member, field', member', different⟩
    cases answer : e.eval with
    | ok x =>
      have modulus := modulus_of_eval_eq_ok answer
      exact absurd ((modulus field member).trans (modulus field' member').symm) different
    | error fault =>
      obtain ⟨op, inside, named⟩ := exists_of_eval_eq_error answer
      exact ⟨op, inside, congrArg Except.error named⟩

/-- The fifth power of the least signed word less one, over seven elements; and a one of another
    field added to it. -/
theorem eval_residue_or_mixed_seven :
    let seven : PrimeField := ⟨7, by decide, by decide⟩
    let seventeen : PrimeField := ⟨17, by decide, by decide⟩
    let difference : FieldExpr := .binary .sub
      (.unary (.pow 5) (.constant seven (.signed Int64.minValue)))
      (.unary .oneLike (.constant seven (.number 100)))
    (∃ x, difference.eval = .ok x ∧ (x.value : ℤ) = 5) ∧
      ∃ op ∈ [FieldOp.add, .sub],
        (binary .add difference (.constant seventeen .one)).eval = .error (.mixedModuli op) := by
  intro seven seventeen difference
  refine ⟨?_, ?_⟩
  · obtain ⟨x, answer, -, -, value⟩ :=
      (eval_residue_or_mixed difference).1 seven (by decide)
    exact ⟨x, answer, value.trans (by decide +kernel)⟩
  · exact (eval_residue_or_mixed (binary .add difference (.constant seventeen .one))).2
      ⟨seven, by decide, seventeen, by decide, by decide⟩

end FieldExpr

end CoinSpend
