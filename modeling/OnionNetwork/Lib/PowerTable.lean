import Mathlib.Algebra.Field.MinimalAxioms
import Mathlib.Logic.Function.Iterate

/-!
# A field given by the powers of one element

Every nonzero element is an iterate of an additive map `step` on `one`, and `log` says
which. The product of `a` and `b` is then `b` stepped `log a` times, and the laws of a
field hold without a look at the elements: two powers of one map commute, and the map is
additive.
-/

namespace OnionNetwork.Lib

/-- The iterates of `step` on `one` run through the nonzero elements and come back to
`one` after `period` steps. -/
structure PowerTable (V : Type*) [Add V] [Zero V] where
  one : V
  step : V → V
  period : Nat
  log : V → Nat
  step_add (a b : V) : step (a + b) = step a + step b
  step_zero : step 0 = 0
  step_log (a : V) (h : a ≠ 0) : step^[log a] one = a
  step_period : step^[period] one = one
  log_le (a : V) : log a ≤ period

namespace PowerTable

variable {V : Type*} [Add V] [Zero V] (t : PowerTable V)

theorem iterate_add (n : Nat) (a b : V) : t.step^[n] (a + b) = t.step^[n] a + t.step^[n] b := by
  induction n generalizing a b with
  | zero => rfl
  | succ n ih => rw [Function.iterate_succ_apply, t.step_add, ih]; rfl

theorem iterate_zero (n : Nat) : t.step^[n] 0 = 0 := by
  induction n with
  | zero => rfl
  | succ n ih => rw [Function.iterate_succ_apply, t.step_zero, ih]

variable [DecidableEq V]

/-- The product. -/
def mul (a b : V) : V := if a = 0 then 0 else t.step^[t.log a] b

/-- The inverse, 0 at 0. -/
def inv (a : V) : V := if a = 0 then 0 else t.step^[t.period - t.log a] t.one

theorem zero_mul (a : V) : t.mul 0 a = 0 := if_pos rfl

theorem mul_zero (a : V) : t.mul a 0 = 0 := by
  unfold mul
  split
  · rfl
  · exact t.iterate_zero _

theorem mul_of_ne {a : V} (h : a ≠ 0) (b : V) : t.mul a b = t.step^[t.log a] b := if_neg h

theorem mul_comm (a b : V) : t.mul a b = t.mul b a := by
  by_cases ha : a = 0
  · rw [ha, zero_mul, mul_zero]
  · by_cases hb : b = 0
    · rw [hb, zero_mul, mul_zero]
    · -- both are `one` stepped by the sum of the logarithms
      calc t.mul a b = t.step^[t.log a] (t.step^[t.log b] t.one) := by
            rw [mul_of_ne t ha, t.step_log b hb]
        _ = t.step^[t.log b] (t.step^[t.log a] t.one) :=
            Function.Commute.iterate_iterate_self t.step _ _ _
        _ = t.mul b a := by rw [mul_of_ne t hb, t.step_log a ha]

theorem mul_add (a b c : V) (h : (0 : V) + 0 = 0) : t.mul a (b + c) = t.mul a b + t.mul a c := by
  unfold mul
  split
  · exact h.symm
  · exact t.iterate_add _ b c

theorem mul_left_comm (a b c : V) : t.mul a (t.mul b c) = t.mul b (t.mul a c) := by
  by_cases ha : a = 0
  · rw [ha, zero_mul, zero_mul, mul_zero]
  · by_cases hb : b = 0
    · rw [hb, zero_mul, zero_mul, mul_zero]
    · rw [mul_of_ne t ha, mul_of_ne t hb, mul_of_ne t hb, mul_of_ne t ha]
      exact Function.Commute.iterate_iterate_self t.step _ _ _

theorem mul_assoc (a b c : V) : t.mul (t.mul a b) c = t.mul a (t.mul b c) := by
  rw [mul_comm t (t.mul a b) c, mul_left_comm, mul_comm t c b]

theorem one_mul (h : t.one ≠ 0) (a : V) : t.mul t.one a = a := by
  by_cases ha : a = 0
  · rw [ha, mul_zero]
  · calc t.mul t.one a = t.step^[t.log a] (t.step^[t.log t.one] t.one) := by
          rw [mul_comm, mul_of_ne t ha, t.step_log _ h]
      _ = a := by rw [t.step_log _ h, t.step_log a ha]

theorem mul_inv {a : V} (h : a ≠ 0) : t.mul a (t.inv a) = t.one := by
  unfold inv
  rw [if_neg h, mul_of_ne t h, ← Function.iterate_add_apply, Nat.add_sub_cancel' (t.log_le a)]
  exact t.step_period

end PowerTable

end OnionNetwork.Lib
