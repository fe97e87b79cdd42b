import Univariate.Proofs.Derive.Coefficients
import Univariate.Proofs.Dual.Power

/-!
# Second derivatives

The derivative of a tree without calls is a sum of numbers and of powers that the power rule put there, so evaluation by dual numbers differentiates it once more. The exponents run down to zero and to minus one, where a power need not mean anything, but the factor in front of such a power is zero.
-/

namespace Univariate

open Polynomial

theorem Dual.constant_mul {K : Type} [Field K] (c : K) (g : Dual K) :
    constant c * g = ⟨c * g.val, c * g.eps⟩ := by
  change Dual.mk (c * g.val) (c * g.eps + 0 * g.val) = _
  rw [zero_mul, add_zero]

namespace Expr

variable {K : Type} [Field K] [BEq K] [Elementary K] [Logarithm K] {v : Var}

/-- Whether evaluation by dual numbers takes the tree for the polynomial at every point. -/
def Denotes (v : Var) (e : Expr K) (p : K[X]) : Prop :=
  ∀ x, e.evaluateDual v x = .ok ⟨p.eval x, p.derivative.eval x⟩

theorem Denotes.num (v : Var) (n : K) : Denotes v (.num n) (C n) := by
  intro x
  rw [eval_C, derivative_C, eval_zero]
  rfl

theorem Denotes.add {l r : Expr K} {p q : K[X]} (hl : Denotes v l p) (hr : Denotes v r q) :
    Denotes v (.add l r) (p + q) := by
  intro x
  rw [derivative_add, eval_add, eval_add]
  exact evaluateAs_add (hl x) (hr x)

variable [ReflBEq K]

/-- A power of the variable is differentiated like a monomial, and for a product without a variable the power does not matter. -/
theorem denotes_powerDerivative (hpow : ∀ (b : K) (n : ℕ), Elementary.pow b (n : K) = b ^ n)
    (v : Var) (tally : FactorTally K ℕ) :
    Denotes v (powerDerivative v tally) (C tally.coefficient * derivative (X ^ tally.variableCount)) := by
  intro x
  have hvar : evaluateAs (fun n : K => Dual.constant (id n)) v (Dual.varying x) (.var v) =
      .ok (Dual.varying x) :=
    evaluateAs_var (Var.beq_iff.mpr rfl)
  refine (evaluateAs_mul rfl (evaluateAs_pow hvar rfl)).trans (congrArg Except.ok ?_)
  change Dual.constant (tally.coefficient * tally.variableCount) *
    (Dual.varying x).pow (Dual.constant (tally.variableCount - 1)) = _
  cases tally.variableCount with
  | zero => simp [Dual.constant_mul]
  | succ n =>
    have hexponent : ((n + 1 : ℕ) : K) - 1 = n := by
      rw [Nat.cast_succ, add_sub_cancel_right]
    rw [hexponent, Dual.pow_constant_natCast hpow, Dual.product_eq, Dual.constant_mul]
    simp [Dual.varying, derivative_X_pow, mul_assoc]

variable [Literal K]

theorem DerivesTo.exists_polynomials (hpow : ∀ (b : K) (n : ℕ), Elementary.pow b (n : K) = b ^ n)
    {e : Expr K} {ts : List (Expr K)} (h : DerivesTo v e ts) (hcalls : e.isCallFree = true)
    (hexact : ∀ t ∈ e.productTerms, t.occurrences ≠ [] → t.HasExactCoefficient) :
    ∃ ps, List.Forall₂ (Denotes v) ts ps ∧ ps.sum = e.polynomial.derivative := by
  induction h with
  | num n =>
    refine ⟨[C 0], .cons (.num v 0) .nil, ?_⟩
    rw [List.sum_singleton, C_0, polynomial_num, derivative_C]
  | var w =>
    refine ⟨[C 1], .cons (.num v 1) .nil, ?_⟩
    rw [List.sum_singleton, C_1, polynomial_var, derivative_X]
  | add _ _ ihl ihr =>
    rw [isCallFree_add, Bool.and_eq_true] at hcalls
    obtain ⟨ps, hps, hpsum⟩ := ihl hcalls.1 fun t ht => hexact t (List.mem_append_left _ ht)
    obtain ⟨qs, hqs, hqsum⟩ := ihr hcalls.2 fun t ht => hexact t (List.mem_append_right _ ht)
    refine ⟨ps ++ qs, List.rel_append hps hqs, ?_⟩
    rw [List.sum_append, hpsum, hqsum, polynomial_add, derivative_add]
  | @mul l r tally htally =>
    obtain ⟨he, rfl⟩ := ofProduct_eq_ok_iff.mp htally
    refine ⟨_, .cons (denotes_powerDerivative hpow v _) .nil, ?_⟩
    rw [List.sum_singleton, he.polynomial_eq, derivative_C_mul]
    by_cases hconstant : (Expr.mul l r).occurrences = []
    · simp [leafTally, hconstant]
    · rw [hexact _ (List.mem_singleton_self _) hconstant]
      rfl
  | sinVar w => cases hcalls
  | cosVar w => cases hcalls
  | sin _ _ _ _ => cases hcalls
  | cos _ _ _ _ => cases hcalls

end Expr

/-- Dual numbers over the derivative of a tree without calls give the first and the second derivative of the polynomial that the tree computes, at every point and for any sum of products with exact coefficients. -/
theorem Limits.evaluateDual_derive_eq {K : Type} [Field K] [BEq K] [ReflBEq K] [Literal K]
    [Elementary K] [Logarithm K] (hpow : ∀ (b : K) (n : ℕ), Elementary.pow b (n : K) = b ^ n)
    {limits : Limits} {v : Var} {e d : Expr K} (hd : (limits.derive v e).outcome = .ok d)
    (hcalls : e.isCallFree = true)
    (hexact : ∀ t ∈ e.productTerms, t.occurrences ≠ [] → t.HasExactCoefficient) (x : K) :
    e.evaluate v x = .ok (e.polynomial.eval x) ∧
      d.evaluateDual v x =
        .ok ⟨e.polynomial.derivative.eval x, e.polynomial.derivative.derivative.eval x⟩ := by
  obtain ⟨_, _, _, ts, hts, hsum⟩ := outcome_derive_eq_ok_iff.mp hd
  obtain ⟨ps, hps, hpolynomial⟩ := hts.exists_polynomials hpow hcalls hexact
  have hdenotes : Expr.Denotes v d ps.sum := Expr.value_sum Expr.Denotes.add hsum hps
  rw [← hpolynomial]
  exact ⟨(evaluate_derive_eq hpow hd hcalls hexact x).1, hdenotes x⟩

/-- The derivative of `2 · (x · (x · x)) + (5 · x + 2 · 3)` over the rational numbers, which raises to the second power, to zero and to minus one. -/
theorem Limits.evaluateDual_derive_eq_cubic :
    let _ : Elementary ℚ := ⟨fun a => 2 * a, fun a => a + 3, fun b e => b ^ e.num⟩
    let _ : Logarithm ℚ := ⟨id⟩
    let _ : Literal ℚ := ⟨fun a => .decimal (toString a), fun a => a < 0⟩
    let x : Var := ⟨0, "x"⟩
    let cube : Expr ℚ := .mul (.num 2) (.mul (.var x) (.mul (.var x) (.var x)))
    let line : Expr ℚ := .mul (.num 5) (.var x)
    let number : Expr ℚ := .mul (.num 2) (.num 3)
    let d := .add (.add (Expr.powerDerivative x ⟨2, 3⟩) (Expr.powerDerivative x ⟨5, 1⟩))
      (Expr.powerDerivative x ⟨2 + 3, 0⟩)
    (derive {} x (.add cube (.add line number))).outcome = .ok d ∧
      ∀ a, (Expr.add cube (.add line number)).evaluate x a = .ok (2 * a ^ 3 + 5 * a + 6) ∧
        d.evaluateDual x a = .ok ⟨6 * a ^ 2 + 5, 12 * a⟩ := by
  intro _ _ _ x cube line number d
  have hcube : FactorTally.ofProduct cube = .ok ⟨2, 3⟩ :=
    Expr.ofProduct_eq_ok_iff.mpr
      ⟨.mul (.num 2) (.mul (.var x) (.mul (.var x) (.var x))), by simp [cube, Expr.leafTally]⟩
  have hline : FactorTally.ofProduct line = .ok ⟨5, 1⟩ :=
    Expr.ofProduct_eq_ok_iff.mpr ⟨.mul (.num 5) (.var x), by simp [line, Expr.leafTally]⟩
  have hnumber : FactorTally.ofProduct number = .ok ⟨2 + 3, 0⟩ :=
    Expr.ofProduct_eq_ok_iff.mpr ⟨.mul (.num 2) (.num 3), by simp [number, Expr.leafTally]⟩
  have hpow : ∀ (b : ℚ) (n : ℕ), Elementary.pow b (n : ℚ) = b ^ n := zpow_num_natCast
  have hd : (derive {} x (.add cube (.add line number))).outcome = .ok d :=
    outcome_derive_eq_ok_iff.mpr
      ⟨by decide, by decide, by decide, _, .add (.mul hcube) (.add (.mul hline) (.mul hnumber)), rfl⟩
  have hexact : ∀ t ∈ (Expr.add cube (.add line number)).productTerms, t.occurrences ≠ [] →
      t.HasExactCoefficient := by
    intro t ht hvaries
    rcases List.mem_cons.mp ht with rfl | ht
    · simp [Expr.HasExactCoefficient, Expr.leafTally, FactorTally.coefficient]
    · rcases List.mem_pair.mp ht with rfl | rfl
      · simp [Expr.HasExactCoefficient, Expr.leafTally, FactorTally.coefficient]
      · exact absurd rfl hvaries
  have hpolynomial : (Expr.add cube (.add line number)).polynomial = C 2 * X ^ 3 + C 5 * X + C 6 := by
    have hsix : (C 6 : ℚ[X]) = C 2 * C 3 := by
      rw [← C_mul]
      norm_num
    change C 2 * (X * (X * X)) + (C 5 * X + C 2 * C 3) = C 2 * X ^ 3 + C 5 * X + C 6
    rw [hsix]
    ring
  refine ⟨hd, fun a => ?_⟩
  obtain ⟨hvalue, hderivatives⟩ := evaluateDual_derive_eq hpow hd rfl hexact a
  rw [hvalue, hderivatives, hpolynomial]
  refine ⟨by simp, congrArg Except.ok (congrArg₂ Dual.mk ?_ ?_)⟩
  · simp only [derivative_add, derivative_C_mul, derivative_X_pow, derivative_X, derivative_C, eval_add,
      eval_mul, eval_pow, eval_C, eval_X, eval_one, eval_zero]
    push_cast
    ring
  · simp only [derivative_add, derivative_C_mul, derivative_X_pow, derivative_X, derivative_C,
      derivative_one, derivative_zero, eval_add, eval_mul, eval_pow, eval_C, eval_X, eval_zero]
    push_cast
    ring

end Univariate
