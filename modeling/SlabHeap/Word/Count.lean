/-
  Counts that must fit a machine word.

  `Count.add`, `Count.sub` and `Count.mul` are the operations of `Nat`, checked:
  a result outside the range of a word is the fault `Fault.overflow`.  The
  lemmas `add_eq_ok`, `sub_eq_ok` and `mul_eq_ok` say when they succeed.
-/
import SlabHeap.Fault

namespace SlabHeap.Count

/-- The sum, if it fits a word. -/
def add (a b : Nat) : Except Fault Nat :=
  if a + b < Word.count then .ok (a + b) else .error (.overflow .add)

/-- The difference, if it is not negative. -/
def sub (a b : Nat) : Except Fault Nat :=
  if b ≤ a then .ok (a - b) else .error (.overflow .subtract)

/-- The product, if it fits a word. -/
def mul (a b : Nat) : Except Fault Nat :=
  if a * b < Word.count then .ok (a * b) else .error (.overflow .multiply)

theorem add_eq_ok {a b c : Nat} : add a b = .ok c ↔ a + b < Word.count ∧ a + b = c := by
  by_cases h : a + b < Word.count <;> simp [add, h]

theorem sub_eq_ok {a b c : Nat} : sub a b = .ok c ↔ b ≤ a ∧ a - b = c := by
  by_cases h : b ≤ a <;> simp [sub, h]

theorem mul_eq_ok {a b c : Nat} : mul a b = .ok c ↔ a * b < Word.count ∧ a * b = c := by
  by_cases h : a * b < Word.count <;> simp [mul, h]

end SlabHeap.Count
