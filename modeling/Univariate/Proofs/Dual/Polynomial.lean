import Mathlib.Algebra.Polynomial.Taylor
import Univariate.Proofs.Dual.Values
import Univariate.Proofs.Expr.Polynomial

/-!
# Dual numbers compute derivatives of polynomials

The product rule of dual numbers is the product rule of formal derivatives, read at a point. So evaluation by dual numbers takes a tree without calls to the value of its polynomial and the value of the derivative of that polynomial, over any commutative ring. The value alone would not carry the induction, because the product rule asks for both parts of both operands.
-/

namespace Univariate

namespace Expr

open Polynomial

variable {R : Type} [CommRing R] [Div R] [BEq R] [Elementary R] [Logarithm R] {v : Var} {e : Expr R}

theorem evaluateDual_eq (hbound : e.boundBy v = true) (hcalls : e.isCallFree = true) (x : R) :
    e.evaluateDual v x = .ok ⟨e.polynomial.eval x, e.polynomial.derivative.eval x⟩ := by
  induction e with
  | num n =>
    rw [polynomial_num, eval_C, derivative_C, eval_zero]
    rfl
  | var w =>
    rw [boundBy_var] at hbound
    rw [polynomial_var, eval_X, derivative_X, eval_one, evaluateDual, evaluateDualAs]
    exact evaluateAs_var hbound
  | add l r ihl ihr =>
    rw [boundBy_add, Bool.and_eq_true] at hbound
    rw [isCallFree_add, Bool.and_eq_true] at hcalls
    have hl := ihl hbound.1 hcalls.1
    have hr := ihr hbound.2 hcalls.2
    rw [polynomial_add, eval_add, derivative_add, eval_add]
    exact evaluateAs_add hl hr
  | mul l r ihl ihr =>
    rw [boundBy_mul, Bool.and_eq_true] at hbound
    rw [isCallFree_mul, Bool.and_eq_true] at hcalls
    have hl := ihl hbound.1 hcalls.1
    have hr := ihr hbound.2 hcalls.2
    rw [polynomial_mul, eval_mul, derivative_mul, eval_add, eval_mul, eval_mul, add_comm]
    exact evaluateAs_mul hl hr
  | call f args _ => cases hcalls

/-- A tree without calls has its polynomial for its value and the derivative of the polynomial for its derivative. This is the formal derivative, the coefficient of the first power of the increment in the value at an incremented point. -/
theorem evaluateDual_polynomial (hbound : e.boundBy v = true) (hcalls : e.isCallFree = true) (x : R) :
    e.evaluateDual v x = .ok ⟨e.polynomial.eval x, e.polynomial.derivative.eval x⟩ ∧
      e.evaluate v x = .ok (e.polynomial.eval x) ∧
      e.polynomial.derivative.eval x = (e.polynomial.comp (X + C x)).coeff 1 := by
  have hdual := evaluateDual_eq hbound hcalls x
  refine ⟨hdual, evaluate_of_evaluateDual hdual, ?_⟩
  rw [← taylor_apply, taylor_coeff_one]

/-- The product `(x + 1) · (x · x + 3)` over the integers. -/
theorem evaluateDual_polynomial_product :
    let _ : Elementary ℤ := ⟨id, id, fun b _ => b⟩
    let _ : Logarithm ℤ := ⟨id⟩
    let x : Var := ⟨0, "x"⟩
    let e : Expr ℤ := .mul (.add (.var x) (.num 1)) (.add (.mul (.var x) (.var x)) (.num 3))
    e.boundBy x = true ∧ e.isCallFree = true ∧ e.polynomial = (X + C 1) * (X * X + C 3) ∧
      ∀ a, e.evaluateDual x a = .ok ⟨e.polynomial.eval a, e.polynomial.derivative.eval a⟩ ∧
        e.evaluate x a = .ok (e.polynomial.eval a) ∧
        e.polynomial.derivative.eval a = (e.polynomial.comp (X + C a)).coeff 1 := by
  intro _ _ x e
  have hbound : e.boundBy x = true := rfl
  have hcalls : e.isCallFree = true := rfl
  exact ⟨hbound, hcalls, rfl, evaluateDual_polynomial hbound hcalls⟩

end Expr

end Univariate
