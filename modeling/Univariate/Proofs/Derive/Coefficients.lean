import Mathlib.Algebra.Polynomial.Derivative
import Univariate.Proofs.Derive.Agreement
import Univariate.Proofs.Dual.Polynomial

/-!
# Derivatives of polynomials in the form of trees

A tree without calls that has a derivative is a sum of numbers, variables and products, so each of its products is one monomial. From degree two on the coefficients of its polynomial are therefore sums of coefficients of products, and where these are exact the derivative of the tree computes the derivative of the polynomial.
-/

namespace Univariate

namespace Expr

open Polynomial

variable {K : Type} [Field K]

theorem IsProduct.polynomial_eq {e : Expr K} (h : e.IsProduct) :
    e.polynomial = C e.numbers.prod * X ^ e.occurrences.length := by
  induction h with
  | num n => simp
  | var w => simp
  | mul _ _ ihl ihr =>
    rw [polynomial_mul, numbers_mul, occurrences_mul, List.prod_append, List.length_append, ihl,
      ihr, C_mul, pow_add, mul_mul_mul_comm]

theorem IsDifferentiable.natDegree_polynomial_le {e : Expr K} (h : e.IsDifferentiable)
    (hcalls : e.isCallFree = true) {degree : ℕ} (hpos : 1 ≤ degree)
    (hdegree : ∀ t ∈ e.productTerms, t.occurrences.length ≤ degree) :
    e.polynomial.natDegree ≤ degree := by
  induction h with
  | num c => exact (natDegree_C c).le.trans (Nat.zero_le _)
  | var w => exact natDegree_X_le.trans hpos
  | add _ _ ihl ihr =>
    rw [isCallFree_add, Bool.and_eq_true] at hcalls
    exact natDegree_add_le_of_degree_le
      (ihl hcalls.1 fun t ht => hdegree t (List.mem_append_left _ ht))
      (ihr hcalls.2 fun t ht => hdegree t (List.mem_append_right _ ht))
  | mul hl hr =>
    rw [(IsProduct.mul hl hr).polynomial_eq]
    exact (natDegree_C_mul_X_pow_le _ _).trans (hdegree _ (List.mem_singleton_self _))
  | sin _ _ => cases hcalls
  | cos _ _ => cases hcalls

variable [BEq K]

/-- The sum of the coefficients that the power rule reads off the products with `n` variables. -/
def coefficientSum (n : ℕ) (e : Expr K) : K :=
  ((e.productTerms.filter fun t => t.occurrences.length == n).map fun t =>
    t.leafTally.coefficient).sum

theorem coefficientSum_add (n : ℕ) (l r : Expr K) :
    (add l r).coefficientSum n = l.coefficientSum n + r.coefficientSum n := by
  rw [coefficientSum, productTerms, List.filter_append, List.map_append, List.sum_append]
  rfl

theorem coefficientSum_mul (n : ℕ) (l r : Expr K) :
    (mul l r).coefficientSum n =
      if (mul l r).occurrences.length = n then (mul l r).leafTally.coefficient else 0 := by
  rw [coefficientSum, productTerms, List.filter_cons, List.filter_nil]
  by_cases hn : (mul l r).occurrences.length = n
  · rw [if_pos hn, if_pos (beq_iff_eq.mpr hn), List.map_singleton, List.sum_singleton]
  · rw [if_neg hn, if_neg (mt beq_iff_eq.mp hn), List.map_nil, List.sum_nil]

theorem coefficientSum_eq_zero {n : ℕ} {e : Expr K}
    (h : ∀ t ∈ e.productTerms, t.occurrences.length ≠ n) : e.coefficientSum n = 0 := by
  have hfilter : (e.productTerms.filter fun t => t.occurrences.length == n) = [] :=
    List.filter_eq_nil_iff.mpr fun t ht => mt beq_iff_eq.mp (h t ht)
  rw [coefficientSum, hfilter, List.map_nil, List.sum_nil]

/-- From degree two on, the products alone make the coefficients. -/
theorem IsDifferentiable.coeff_polynomial {e : Expr K} (h : e.IsDifferentiable)
    (hcalls : e.isCallFree = true)
    (hexact : ∀ t ∈ e.productTerms, t.occurrences ≠ [] → t.HasExactCoefficient) {n : ℕ} (hn : 2 ≤ n) :
    e.polynomial.coeff n = e.coefficientSum n := by
  induction h with
  | num c => exact coeff_C_of_ne_zero (by omega)
  | var w => exact coeff_X_of_ne_one (by omega)
  | add _ _ ihl ihr =>
    rw [isCallFree_add, Bool.and_eq_true] at hcalls
    rw [polynomial_add, coeff_add, coefficientSum_add,
      ihl hcalls.1 fun t ht => hexact t (List.mem_append_left _ ht),
      ihr hcalls.2 fun t ht => hexact t (List.mem_append_right _ ht)]
  | @mul l r hl hr =>
    rw [(IsProduct.mul hl hr).polynomial_eq, coeff_C_mul_X_pow, coefficientSum_mul]
    split
    case isTrue hlength =>
      have hvaries : (Expr.mul l r).occurrences ≠ [] := List.ne_nil_of_length_pos (by omega)
      rw [if_pos hlength.symm]
      exact (hexact _ (List.mem_singleton_self _) hvaries).symm
    case isFalse hlength => rw [if_neg (Ne.symm hlength)]
  | sin _ _ => cases hcalls
  | cos _ _ => cases hcalls

end Expr

namespace Limits

open Polynomial

variable {K : Type} [Field K] [BEq K] [Literal K] [Elementary K]

/-- The derivative of a tree without calls computes the derivative of the polynomial that the tree computes. -/
theorem evaluate_derive_eq (hpow : ∀ (b : K) (n : ℕ), Elementary.pow b (n : K) = b ^ n)
    {limits : Limits} {v : Var} {e d : Expr K} (hd : (limits.derive v e).outcome = .ok d)
    (hcalls : e.isCallFree = true)
    (hexact : ∀ t ∈ e.productTerms, t.occurrences ≠ [] → t.HasExactCoefficient) (x : K) :
    e.evaluate v x = .ok (e.polynomial.eval x) ∧
      d.evaluate v x = .ok (e.polynomial.derivative.eval x) := by
  -- Any logarithm will do: without calls there is no power with a varying exponent.
  let _ : Logarithm K := ⟨id⟩
  obtain ⟨_, _, hbound, ts, hts, hsum⟩ := outcome_derive_eq_ok_iff.mp hd
  obtain ⟨g, ys, hg, hys, heps⟩ := hts.exists_values hpow hbound hexact x
  have hpolynomial := Expr.evaluateDual_eq hbound hcalls x
  obtain rfl := Except.ok.inj (hg.symm.trans hpolynomial)
  have hvalue := Expr.evaluate_sum hsum hys
  rw [heps] at hvalue
  exact ⟨Expr.evaluate_of_evaluateDual hpolynomial, hvalue⟩

end Limits

end Univariate
