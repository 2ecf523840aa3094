import CoinSpend.Fault

/-!
# Counts

Rows, columns, wires, constraints and powers are counted by natural numbers below `2 ^ 64`. The
operations come in two forms: `add?` and `mul?` say whether the result is still a count, and
`add`, `sub` and `mul` fault when it is not. `locate` numbers the cells of a grid row after row.
-/

namespace CoinSpend.Count

/-- The first number that is too large to be a count. -/
def limit : Nat := UInt64.size

/-- The number, if it is a count. -/
def ofNat? (n : Nat) : Option Nat :=
  if n < limit then some n else none

/-- The sum, if it is a count. -/
def add? (a b : Nat) : Option Nat := ofNat? (a + b)

/-- The product, if it is a count. -/
def mul? (a b : Nat) : Option Nat := ofNat? (a * b)

/-- The sum, which has to be a count. -/
def add (a b : Nat) : Checked Nat :=
  if a + b < limit then .ok (a + b) else .error (.overflow .add)

/-- The difference, which has to be a count: what is taken away has to be there. -/
def sub (a b : Nat) : Checked Nat :=
  if b ≤ a then .ok (a - b) else .error (.overflow .sub)

/-- The product, which has to be a count. -/
def mul (a b : Nat) : Checked Nat :=
  if a * b < limit then .ok (a * b) else .error (.overflow .mul)

/-- The row and the column of the entry with the given number, in rows of `width` entries. -/
def locate (width index : Nat) : Checked (Nat × Nat) :=
  if width = 0 then .error .divisionByZero else .ok (index / width, index % width)

theorem ofNat?_eq_some_iff {n m : Nat} : ofNat? n = some m ↔ n < limit ∧ n = m := by
  unfold ofNat?
  split <;> simp <;> omega

theorem add?_eq_some_iff {a b c : Nat} : add? a b = some c ↔ a + b < limit ∧ a + b = c :=
  ofNat?_eq_some_iff

theorem mul?_eq_some_iff {a b c : Nat} : mul? a b = some c ↔ a * b < limit ∧ a * b = c :=
  ofNat?_eq_some_iff

theorem add_eq_ok_iff {a b c : Nat} : add a b = .ok c ↔ a + b < limit ∧ a + b = c := by
  unfold add
  split <;> simp <;> omega

theorem sub_eq_ok_iff {a b c : Nat} : sub a b = .ok c ↔ b ≤ a ∧ a - b = c := by
  unfold sub
  split <;> simp <;> omega

theorem mul_eq_ok_iff {a b c : Nat} : mul a b = .ok c ↔ a * b < limit ∧ a * b = c := by
  unfold mul
  split <;> simp <;> omega

theorem add_eq_ok {a b : Nat} (h : a + b < limit) : add a b = .ok (a + b) :=
  add_eq_ok_iff.mpr ⟨h, rfl⟩

theorem sub_eq_ok {a b : Nat} (h : b ≤ a) : sub a b = .ok (a - b) :=
  sub_eq_ok_iff.mpr ⟨h, rfl⟩

theorem mul_eq_ok {a b : Nat} (h : a * b < limit) : mul a b = .ok (a * b) :=
  mul_eq_ok_iff.mpr ⟨h, rfl⟩

theorem locate_eq_ok {width : Nat} (h : 0 < width) (index : Nat) :
    locate width index = .ok (index / width, index % width) :=
  if_neg (Nat.ne_of_gt h)

end CoinSpend.Count
