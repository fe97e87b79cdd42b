import Mathlib.Algebra.BigOperators.Group.List.Basic
import Mathlib.Algebra.CharZero.Defs
import Mathlib.Algebra.Field.Defs
import Mathlib.Tactic.Ring
import Univariate.Proofs.Derive.Refusal
import Univariate.Proofs.Dual.Power

/-!
# The power rule on products

A product of numbers and variables in any nesting is the product `k` of its numbers times a power of the variable, so its derivative is `k · p · x ^ (p - 1)`, which is what evaluation by dual numbers gives. The power rule puts the coefficient of the tally in the place of `k`. The two agree where the coefficient is exact, and for a product with a variable only there.
-/

namespace Univariate

/-- Over a field the factors of a product are counted without bound. -/
instance {K : Type} [Field K] : Counting K ℕ := ⟨Nat.cast⟩

/-- Addition without rounding. -/
structure ExactAddition (α : Type) [Zero α] [Add α] : Prop where
  assoc (a b c : α) : a + b + c = a + (b + c)
  comm (a b : α) : a + b = b + a
  zero_add (a : α) : 0 + a = a

namespace ExactAddition

variable {α : Type} [Zero α] [Add α]

theorem sum_singleton (h : ExactAddition α) (n : α) : [n].sum = n := by
  rw [List.sum_cons, List.sum_nil, h.comm, h.zero_add]

theorem sum_append (h : ExactAddition α) (ms ns : List α) : (ms ++ ns).sum = ms.sum + ns.sum := by
  induction ms with
  | nil => rw [List.nil_append, List.sum_nil, h.zero_add]
  | cons m ms ih => rw [List.cons_append, List.sum_cons, List.sum_cons, ih, h.assoc]

theorem sum_eq_of_perm (h : ExactAddition α) {ms ns : List α} (hperm : ms.Perm ns) :
    ms.sum = ns.sum := by
  refine hperm.foldr_eq' ?_ 0
  intro a _ b _ c
  rw [← h.assoc, ← h.assoc, h.comm b a]

end ExactAddition

namespace Expr

/-! ### Tallies -/

section Tallies

variable {α γ : Type} [Zero α] [Add α] [Literal α] [Count γ]

/-- What holds of the numbers among the leaves and of their sum is carried from the operands of a product to the product. -/
theorem IsProduct.exists_ofProduct {Adds : List α → α → Prop} (hnil : Adds [] 0)
    (hsingle : ∀ n, Adds [n] n)
    (hadd : ∀ ms ns a b, Adds ms a → Adds ns b → Adds (ms ++ ns) (a + b)) {e : Expr α} (h : e.IsProduct) :
    ∃ a, FactorTally.ofProduct e = .ok ⟨a, (Count.ofNat e.occurrences.length : γ)⟩ ∧ Adds e.numbers a := by
  induction h with
  | num n => exact ⟨n, rfl, hsingle n⟩
  | var v => exact ⟨0, rfl, hnil⟩
  | @mul l r _ _ ihl ihr =>
    obtain ⟨a, hl, ha⟩ := ihl
    obtain ⟨b, hr, hb⟩ := ihr
    refine ⟨a + b, ?_, ?_⟩
    · rw [FactorTally.ofProduct, hl, hr, occurrences_mul, List.length_append, Count.ofNat_add]
      rfl
    · rw [numbers_mul]
      exact hadd _ _ _ _ ha hb

theorem IsProduct.ofProduct_of_exact (hexact : ExactAddition α) {e : Expr α} (h : e.IsProduct) :
    FactorTally.ofProduct e = .ok ⟨e.numbers.sum, (Count.ofNat e.occurrences.length : γ)⟩ := by
  have hadd (ms ns : List α) (a b : α) (ha : a = ms.sum) (hb : b = ns.sum) : a + b = (ms ++ ns).sum := by
    rw [hexact.sum_append, ha, hb]
  obtain ⟨_, htally, rfl⟩ :=
    h.exists_ofProduct (γ := γ) List.sum_nil.symm (fun n => (hexact.sum_singleton n).symm) hadd
  exact htally

end Tallies

variable {K : Type} [Field K]

theorem IsProduct.ofProduct_eq [Literal K] {e : Expr K} (h : e.IsProduct) :
    FactorTally.ofProduct e = .ok e.leafTally :=
  h.ofProduct_of_exact ⟨add_assoc, add_comm, zero_add⟩

theorem ofProduct_eq_ok_iff [Literal K] {e : Expr K} {tally : FactorTally K ℕ} :
    FactorTally.ofProduct e = .ok tally ↔ e.IsProduct ∧ e.leafTally = tally := by
  constructor
  · intro h
    have he := isProduct_of_ofProduct h
    rw [he.ofProduct_eq] at h
    exact ⟨he, Except.ok.inj h⟩
  · rintro ⟨he, rfl⟩
    exact he.ofProduct_eq

/-! ### Derivatives of products -/

theorem natCast_mul_pow_pred (x : K) (m n : ℕ) :
    x ^ m * (n * x ^ (n - 1)) = n * x ^ (m + n - 1) := by
  cases n with
  | zero => simp
  | succ n =>
    have hexponent : m + (n + 1) - 1 = m + n := by omega
    rw [hexponent, Nat.add_sub_cancel, pow_add]
    ring

theorem monomial_mul (p q x : K) (m n : ℕ) : p * x ^ m * (q * x ^ n) = p * q * x ^ (m + n) := by
  rw [pow_add]
  ring

theorem monomial_mul_derivative (p q x : K) (m n : ℕ) :
    p * x ^ m * (q * (n * x ^ (n - 1))) + p * (m * x ^ (m - 1)) * (q * x ^ n) =
      p * q * ((m + n : ℕ) * x ^ (m + n - 1)) := by
  have hright := natCast_mul_pow_pred x m n
  have hleft := natCast_mul_pow_pred x n m
  rw [Nat.add_comm n m] at hleft
  calc
    _ = p * q * (x ^ m * (n * x ^ (n - 1)) + x ^ n * (m * x ^ (m - 1))) := by ring
    _ = p * q * (n * x ^ (m + n - 1) + m * x ^ (m + n - 1)) := by rw [hright, hleft]
    _ = p * q * ((m + n : ℕ) * x ^ (m + n - 1)) := by
      rw [Nat.cast_add]
      ring

variable [BEq K] [Elementary K]

theorem evaluate_powerDerivative (hpow : ∀ (b : K) (n : ℕ), Elementary.pow b (n : K) = b ^ n)
    (v : Var) (tally : FactorTally K ℕ) (x : K) :
    (powerDerivative v tally).evaluate v x =
      .ok (tally.coefficient * (tally.variableCount * x ^ (tally.variableCount - 1))) := by
  have hbase : (Expr.var v).evaluate v x = .ok x := evaluateAs_var (Var.beq_iff.mpr rfl)
  refine (evaluateAs_mul rfl (evaluateAs_pow hbase rfl)).trans (congrArg Except.ok ?_)
  change tally.coefficient * tally.variableCount * Elementary.pow x (tally.variableCount - 1) = _
  rw [mul_assoc, natCast_mul_pow_sub_one hpow]

variable [Logarithm K] {v : Var}

theorem IsProduct.evaluateDual_eq {e : Expr K} (he : e.IsProduct) (hbound : e.boundBy v = true) (x : K) :
    e.evaluateDual v x = .ok ⟨e.numbers.prod * x ^ e.occurrences.length,
      e.numbers.prod * (e.occurrences.length * x ^ (e.occurrences.length - 1))⟩ := by
  induction he with
  | num n => simp [evaluateDual, evaluateDualAs, evaluateAs, Dual.constant]
  | var w =>
    rw [boundBy_var] at hbound
    simp [evaluateDual, evaluateDualAs, evaluateAs, hbound, Dual.varying]
  | @mul l r _ _ ihl ihr =>
    rw [boundBy_mul, Bool.and_eq_true] at hbound
    rw [numbers_mul, occurrences_mul, List.prod_append, List.length_append]
    refine (evaluateAs_mul (ihl hbound.1) (ihr hbound.2)).trans (congrArg Except.ok ?_)
    exact congrArg₂ Dual.mk (monomial_mul ..) (monomial_mul_derivative ..)

/-! ### Agreement -/

theorem IsProduct.evaluate_powerDerivative_of_exact
    (hpow : ∀ (b : K) (n : ℕ), Elementary.pow b (n : K) = b ^ n) {e : Expr K} (he : e.IsProduct)
    (hbound : e.boundBy v = true) (hexact : e.occurrences ≠ [] → e.HasExactCoefficient) (x : K) :
    ∃ g, e.evaluateDual v x = .ok g ∧ (powerDerivative v e.leafTally).evaluate v x = .ok g.eps := by
  refine ⟨_, he.evaluateDual_eq hbound x, ?_⟩
  rw [evaluate_powerDerivative hpow]
  by_cases hconstant : e.occurrences = []
  · simp [leafTally, hconstant]
  · rw [hexact hconstant]
    rfl

/-- At one the derivatives differ by the factor between the coefficients, and the exponent is not zero there. -/
theorem IsProduct.exact_of_evaluate_powerDerivative [CharZero K]
    (hpow : ∀ (b : K) (n : ℕ), Elementary.pow b (n : K) = b ^ n) {e : Expr K} (he : e.IsProduct)
    (hbound : e.boundBy v = true) (hvaries : e.occurrences ≠ []) {g : Dual K}
    (hdual : e.evaluateDual v 1 = .ok g)
    (hrule : (powerDerivative v e.leafTally).evaluate v 1 = .ok g.eps) : e.HasExactCoefficient := by
  have hcount : (e.occurrences.length : K) ≠ 0 := by
    rw [Nat.cast_ne_zero]
    exact mt List.length_eq_zero_iff.mp hvaries
  rw [he.evaluateDual_eq hbound] at hdual
  obtain rfl := Except.ok.inj hdual
  rw [evaluate_powerDerivative hpow] at hrule
  have heq := Except.ok.inj hrule
  simp only [leafTally, one_pow, mul_one] at heq
  exact mul_right_cancel₀ hcount heq

end Expr

end Univariate
