import OpenImpact.Library.Halt
import Mathlib.Algebra.Order.Ring.Int

/-!
# C expressions that can fail

The value of an `int` expression and the object behind a pointer.
-/

namespace OpenImpact

/-- The value of an `int` expression, which has none outside of the range of `int`. -/
def int32 (n : ℤ) : Run ℤ :=
  if -2147483648 ≤ n ∧ n ≤ 2147483647 then .ok n else .error .overflow

theorem int32_eq {n : ℤ} (h : -2147483648 ≤ n ∧ n ≤ 2147483647) : int32 n = .ok n := if_pos h

theorem int32_eq_ok {n m : ℤ} :
    int32 n = .ok m ↔ (-2147483648 ≤ n ∧ n ≤ 2147483647) ∧ n = m := by
  rw [int32]
  split_ifs with h
  · simp [h]
  · simp [h]

/-- The value of `a / b` for `int`s, which has none for a zero `b`. -/
def divide (a b : ℤ) : Run ℤ :=
  if b = 0 then .error .overflow else .ok (a.tdiv b)

theorem divide_eq {a b : ℤ} (h : b ≠ 0) : divide a b = .ok (a.tdiv b) := if_neg h

/-- What a pointer points to. -/
def deref {α : Type} : Option α → Run α
  | some a => .ok a
  | none => .error .fault

@[simp] theorem deref_some {α : Type} (a : α) : deref (some a) = .ok a := rfl

@[simp] theorem deref_none {α : Type} : deref (none : Option α) = .error .fault := rfl

theorem deref_eq_ok {α : Type} {x : Option α} {a : α} : deref x = .ok a ↔ x = some a := by
  cases x <;> simp [deref]

end OpenImpact
