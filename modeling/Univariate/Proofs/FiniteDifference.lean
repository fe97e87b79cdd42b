import Mathlib.Algebra.Order.Field.Basic
import Univariate.FiniteDifference
import Univariate.Proofs.Code.Run
import Univariate.Proofs.Derive.Coefficients
import Univariate.Proofs.Derive.Compiles

/-!
# Finite differences of polynomials

The slope of a polynomial of degree three over an interval around a point misses the derivative there by the leading coefficient times the square of half the width, wherever the point is. So for a sum of products with at most three variables each, the gap between slope and derivative is the same at all points, and the check returns it, or zero if it is asked about no point.
-/

namespace Univariate

open Polynomial

section Slopes

variable {K : Type} [Field K]

theorem eval_eq_of_natDegree_le_three {p : K[X]} (hp : p.natDegree ≤ 3) (x : K) :
    p.eval x = p.coeff 0 + p.coeff 1 * x + p.coeff 2 * x ^ 2 + p.coeff 3 * x ^ 3 := by
  rw [eval_eq_sum_range' (Nat.lt_succ_of_le hp)]
  simp only [Finset.sum_range_succ, Finset.sum_range_zero]
  ring

theorem eval_derivative_eq_of_natDegree_le_three {p : K[X]} (hp : p.natDegree ≤ 3) (x : K) :
    p.derivative.eval x = p.coeff 1 + 2 * p.coeff 2 * x + 3 * p.coeff 3 * x ^ 2 := by
  have hderivative : p.derivative.natDegree < 3 :=
    Nat.lt_succ_of_le ((natDegree_derivative_le p).trans (Nat.sub_le_sub_right hp 1))
  rw [eval_eq_sum_range' hderivative]
  simp only [Finset.sum_range_succ, Finset.sum_range_zero, coeff_derivative]
  push_cast
  ring

/-- The slope of a polynomial of degree three is not quite its derivative. -/
theorem centralDifference_eval [CharZero K] {p : K[X]} (hp : p.natDegree ≤ 3) (x : K) {h : K}
    (hh : h ≠ 0) :
    centralDifference (fun a => p.eval a) x h = p.derivative.eval x + p.coeff 3 * h ^ 2 := by
  rw [centralDifference, eval_eq_of_natDegree_le_three hp, eval_eq_of_natDegree_le_three hp,
    eval_derivative_eq_of_natDegree_le_three hp, one_add_one_eq_two, div_eq_iff (mul_ne_zero two_ne_zero hh)]
  ring

end Slopes

/-! ### The largest gap -/

namespace Derivative

section Runs

variable {α : Type} [Zero α] [One α] [Add α] [Sub α] [Mul α] [Div α] [Max α] [Elementary α] [Measured α]

/-- Where the function has a value at all points the check does not fail. -/
theorem maxFiniteDifferenceError_eq {d : Derivative α} {f : Abstraction α}
    (hf : ∀ x, ∃ y, f.evaluate x = .ok y) (points : List α) (h : α) :
    d.maxFiniteDifferenceError f points h = .ok (points.foldl (d.widenGap f h) 0) := by
  have hstep (worst x : α) :
      (do
        let _ ← f.evaluate x
        return d.widenGap f h worst x) = (.ok (d.widenGap f h worst x) : Except Error α) := by
    obtain ⟨y, hy⟩ := hf x
    rw [hy]
    rfl
  simp only [maxFiniteDifferenceError, hstep]
  exact List.foldlM_pure

end Runs

section Exact

variable {K : Type} [Field K] [LinearOrder K] [Elementary K] [Measured K] {d : Derivative K}
  {f : Abstraction K} {h : K}

theorem foldl_widenGap_of_constant {gap : K} (hgap : 0 ≤ gap)
    (hwiden : ∀ worst x, d.widenGap f h worst x = max worst gap) {points : List K}
    (hpoints : points ≠ []) : points.foldl (d.widenGap f h) 0 = gap := by
  obtain ⟨x, xs, rfl⟩ := List.exists_cons_of_ne_nil hpoints
  rw [List.foldl_cons, hwiden, max_eq_right hgap]
  exact List.foldl_fixed' (fun y => by rw [hwiden, max_self]) xs

/-- The gap does not depend on the point. -/
theorem widenGap_eq [IsStrictOrderedRing K] (hfinite : ∀ a : K, Measured.isFinite a = true)
    (habs : ∀ a : K, Measured.abs a = |a|) {p : K[X]} (hp : p.natDegree ≤ 3)
    (hf : ∀ a, f.evaluateOrNan a = p.eval a) (hd : ∀ a, d.evaluate a = p.derivative.eval a)
    (hh : h ≠ 0) (worst x : K) : d.widenGap f h worst x = max worst (|p.coeff 3| * h ^ 2) := by
  have hslope : centralDifference f.evaluateOrNan x h = p.derivative.eval x + p.coeff 3 * h ^ 2 := by
    rw [funext hf]
    exact centralDifference_eval hp x hh
  simp only [widenGap, hslope, hd, hfinite, habs, Bool.and_self, if_true]
  rw [add_sub_cancel_left, abs_mul, abs_of_nonneg (sq_nonneg h)]

end Exact

end Derivative

namespace Limits

section Values

variable {K : Type} [Field K] [DecidableEq K] [BEq K] [Literal K] [Elementary K] [Measured K]

/-- A function without calls and its derivative compute a polynomial and the derivative of the polynomial, the first by walking the tree and the second by running the program. -/
theorem evaluate_differentiate_eq (hpow : ∀ (b : K) (n : ℕ), Elementary.pow b (n : K) = b ^ n)
    {limits : Limits} {f : Abstraction K} {d : Derivative K}
    (hd : (limits.differentiate f).outcome = .ok d) (hcalls : f.body.isCallFree = true)
    (hexact : ∀ t ∈ f.body.productTerms, t.occurrences ≠ [] → t.HasExactCoefficient) (x : K) :
    f.evaluate x = .ok (f.body.polynomial.eval x) ∧
      d.evaluate x = f.body.polynomial.derivative.eval x := by
  obtain ⟨hbody, hprogram⟩ := of_outcome_differentiate hd
  obtain ⟨hvalue, hslope⟩ := evaluate_derive_eq hpow hbody hcalls hexact x
  exact ⟨hvalue, Program.evaluate_of_compile hprogram hslope⟩

end Values

variable {K : Type} [Field K] [LinearOrder K] [IsStrictOrderedRing K] [DecidableEq K] [BEq K]
  [Literal K] [Elementary K] [Measured K]

/-- In exact arithmetic the check finds no gap for a sum of products with exact coefficients and at most two variables each. With three variables in some products it finds the sum of their coefficients times the square of the step, for any points and however the sum is nested. -/
theorem maxFiniteDifferenceError_cubic
    (hpow : ∀ (b : K) (n : ℕ), Elementary.pow b (n : K) = b ^ n)
    (hfinite : ∀ a : K, Measured.isFinite a = true) (habs : ∀ a : K, Measured.abs a = |a|)
    {limits : Limits} {f : Abstraction K} {d : Derivative K}
    (hd : (limits.differentiate f).outcome = .ok d) (hcalls : f.body.isCallFree = true)
    (hdegree : ∀ t ∈ f.body.productTerms, t.occurrences.length ≤ 3)
    (hexact : ∀ t ∈ f.body.productTerms, t.occurrences ≠ [] → t.HasExactCoefficient)
    (points : List K) {h : K} (hh : h ≠ 0) :
    ((points = [] ∨ ∀ t ∈ f.body.productTerms, t.occurrences.length ≠ 3) →
        d.maxFiniteDifferenceError f points h = .ok 0) ∧
      (points ≠ [] → (∃ t ∈ f.body.productTerms, t.occurrences.length = 3) →
        d.maxFiniteDifferenceError f points h = .ok (|f.body.coefficientSum 3| * h ^ 2)) := by
  have hgap (hpoints : points ≠ []) : d.maxFiniteDifferenceError f points h =
      .ok (|f.body.coefficientSum 3| * h ^ 2) := by
    obtain ⟨_, _, _, ts, hts, _⟩ := outcome_derive_eq_ok_iff.mp (of_outcome_differentiate hd).1
    have hdifferentiable := hts.isDifferentiable
    have hvalues := evaluate_differentiate_eq hpow hd hcalls hexact
    have hcubic : f.body.polynomial.natDegree ≤ 3 :=
      hdifferentiable.natDegree_polynomial_le hcalls (by decide) hdegree
    have hnumber (x : K) : f.evaluateOrNan x = f.body.polynomial.eval x := by
      rw [Abstraction.evaluateOrNan, (hvalues x).1]
    have hwiden := Derivative.widenGap_eq hfinite habs hcubic hnumber (fun x => (hvalues x).2) hh
    rw [Derivative.maxFiniteDifferenceError_eq fun x => ⟨_, (hvalues x).1⟩,
      ← hdifferentiable.coeff_polynomial hcalls hexact (by decide : 2 ≤ 3),
      Derivative.foldl_widenGap_of_constant (mul_nonneg (abs_nonneg _) (sq_nonneg h)) hwiden hpoints]
  refine ⟨?_, fun hpoints _ => hgap hpoints⟩
  intro hnone
  by_cases hpoints : points = []
  · rw [hpoints]
    rfl
  · have hproducts := hnone.resolve_left hpoints
    rw [hgap hpoints, Expr.coefficientSum_eq_zero hproducts, abs_zero, zero_mul]

/-- The function `2 · (x · (x · x)) + x · (5 · x)` over the rational numbers, with whole powers and any two functions for the sine and the cosine. -/
theorem maxFiniteDifferenceError_cubic_twice_cube :
    let _ : Elementary ℚ := ⟨fun a => 2 * a, fun a => a + 3, fun b e => b ^ e.num⟩
    let _ : Literal ℚ := ⟨fun a => .decimal (toString a), fun a => a < 0⟩
    let _ : Measured ℚ := ⟨0, fun _ => true, fun a => |a|⟩
    let x : Var := ⟨0, "x"⟩
    let cube : Expr ℚ := .mul (.num 2) (.mul (.var x) (.mul (.var x) (.var x)))
    let square : Expr ℚ := .mul (.var x) (.mul (.num 5) (.var x))
    let f : Abstraction ℚ := ⟨x, .add cube square⟩
    let body := .add (Expr.powerDerivative x ⟨2, 3⟩) (Expr.powerDerivative x ⟨5, 2⟩)
    let d : Derivative ℚ := ⟨⟨x, body⟩, .ofTree body x⟩
    (differentiate {} f).outcome = .ok d ∧ f.body.productTerms = [cube, square] ∧
      d.maxFiniteDifferenceError f [] (1 / 2) = .ok 0 ∧
      d.maxFiniteDifferenceError f [1, -3] (1 / 2) = .ok (1 / 2) := by
  intro _ _ _ x cube square f body d
  have hcube : FactorTally.ofProduct cube = .ok ⟨2, 3⟩ :=
    Expr.ofProduct_eq_ok_iff.mpr
      ⟨.mul (.num 2) (.mul (.var x) (.mul (.var x) (.var x))), by simp [cube, Expr.leafTally]⟩
  have hsquare : FactorTally.ofProduct square = .ok ⟨5, 2⟩ :=
    Expr.ofProduct_eq_ok_iff.mpr
      ⟨.mul (.var x) (.mul (.num 5) (.var x)), by simp [square, Expr.leafTally]⟩
  have hpow : ∀ (b : ℚ) (n : ℕ), Elementary.pow b (n : ℚ) = b ^ n := by
    intro b n
    change b ^ (n : ℚ).num = b ^ n
    rw [Rat.num_natCast, zpow_natCast]
  have hbody : (derive {} x f.body).outcome = .ok body :=
    outcome_derive_eq_ok_iff.mpr
      ⟨by decide, by decide, by decide, _, .add (.mul hcube) (.mul hsquare), rfl⟩
  have hd : (differentiate {} f).outcome = .ok d := by
    rw [outcome_differentiate_of_ok hbody, Program.compile_of_wellFormed rfl rfl, if_pos (by decide)]
    rfl
  have hdegree : ∀ t ∈ f.body.productTerms, t.occurrences.length ≤ 3 := by
    intro t ht
    rcases List.mem_pair.mp ht with rfl | rfl
    · decide
    · decide
  have hexact : ∀ t ∈ f.body.productTerms, t.occurrences ≠ [] → t.HasExactCoefficient := by
    intro t ht _
    rcases List.mem_pair.mp ht with rfl | rfl
    · simp [Expr.HasExactCoefficient, Expr.leafTally, FactorTally.coefficient]
    · simp [Expr.HasExactCoefficient, Expr.leafTally, FactorTally.coefficient]
  have hfinite (a : ℚ) : Measured.isFinite a = true := rfl
  have habs (a : ℚ) : Measured.abs a = |a| := rfl
  have hcalls : f.body.isCallFree = true := rfl
  have hstep : (1 / 2 : ℚ) ≠ 0 := by norm_num
  have hsum : f.body.coefficientSum 3 = 2 := by
    have hadd : f.body.coefficientSum 3 = cube.coefficientSum 3 + square.coefficientSum 3 :=
      Expr.coefficientSum_add 3 cube square
    rw [hadd, Expr.coefficientSum_mul, Expr.coefficientSum_mul]
    simp [Expr.leafTally, FactorTally.coefficient]
  have hgap := maxFiniteDifferenceError_cubic hpow hfinite habs hd hcalls hdegree hexact
  refine ⟨hd, rfl, (hgap [] hstep).1 (.inl rfl), ?_⟩
  rw [(hgap [1, -3] hstep).2 (List.cons_ne_nil _ _) ⟨cube, List.mem_cons_self, rfl⟩, hsum]
  norm_num

end Limits

end Univariate
