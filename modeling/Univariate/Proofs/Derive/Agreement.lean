import Univariate.Proofs.Derive.Products

/-!
# The rules agree with dual numbers

Differentiation by rules and evaluation by dual numbers compute the same derivative, as long as the coefficients that the power rule reads off the products are exact. The proof goes along a derivation. What it carries is one value for each term of the derivative, with the derivative part of the dual number as the sum of these values; the chain rule closes the sum of an argument before it is multiplied.
-/

namespace Univariate

namespace Expr

/-! ### The value of a sum -/

section Sums

variable {α M : Type} [AddMonoid M] {Value : Expr α → M → Prop}

theorem value_foldl_add (hadd : ∀ {l r a b}, Value l a → Value r b → Value (.add l r) (a + b))
    {ts : List (Expr α)} {ys : List M} {t : Expr α} {y : M} (ht : Value t y)
    (hts : List.Forall₂ Value ts ys) : Value (ts.foldl .add t) (y + ys.sum) := by
  induction hts generalizing t y with
  | nil =>
    rw [List.sum_nil, add_zero]
    exact ht
  | cons hs _ ih =>
    rw [List.foldl_cons, List.sum_cons, ← add_assoc]
    exact ih (hadd ht hs)

theorem value_sum (hadd : ∀ {l r a b}, Value l a → Value r b → Value (.add l r) (a + b))
    {ts : List (Expr α)} {ys : List M} {d : Expr α} (hd : sum ts = .ok d)
    (hts : List.Forall₂ Value ts ys) : Value d ys.sum := by
  obtain ⟨t, rest, rfl, rfl⟩ := sum_eq_ok_iff.mp hd
  cases hts with
  | cons ht hrest =>
    rw [List.sum_cons]
    exact value_foldl_add hadd ht hrest

end Sums

variable {K : Type} [Field K] [Elementary K] {v : Var} {x : K}

theorem evaluate_sum {ts : List (Expr K)} {ys : List K} {d : Expr K} (hd : sum ts = .ok d)
    (hts : List.Forall₂ (fun t y => t.evaluate v x = .ok y) ts ys) : d.evaluate v x = .ok ys.sum :=
  value_sum evaluateAs_add hd hts

/-! ### Along a derivation -/

variable [BEq K] [Logarithm K]

theorem values_of_var {w : Var} (h : (w == v) = true) (x : K) :
    (Expr.var w).evaluate v x = .ok x ∧ (Expr.var w).evaluateDual v x = .ok (Dual.varying x) := by
  rw [evaluate, evaluateDual, evaluateDualAs]
  exact ⟨evaluateAs_var h, evaluateAs_var h⟩

variable [Literal K]

theorem DerivesTo.exists_values (hpow : ∀ (b : K) (n : ℕ), Elementary.pow b (n : K) = b ^ n)
    {e : Expr K} {ts : List (Expr K)} (h : DerivesTo v e ts) (hbound : e.boundBy v = true)
    (hexact : ∀ t ∈ e.productTerms, t.occurrences ≠ [] → t.HasExactCoefficient) (x : K) :
    ∃ g ys, e.evaluateDual v x = .ok g ∧
      List.Forall₂ (fun t y => t.evaluate v x = .ok y) ts ys ∧ ys.sum = g.eps := by
  induction h with
  | num n => exact ⟨_, [0], rfl, .cons rfl .nil, List.sum_singleton⟩
  | var w =>
    obtain ⟨_, hdual⟩ := values_of_var (by simpa using hbound) x
    exact ⟨_, [1], hdual, .cons rfl .nil, List.sum_singleton⟩
  | @add l r ls rs _ _ ihl ihr =>
    rw [boundBy_add, Bool.and_eq_true] at hbound
    obtain ⟨a, as, ha, has, hasum⟩ :=
      ihl hbound.1 fun t ht => hexact t (List.mem_append_left _ ht)
    obtain ⟨b, bs, hb, hbs, hbsum⟩ :=
      ihr hbound.2 fun t ht => hexact t (List.mem_append_right _ ht)
    refine ⟨a + b, as ++ bs, evaluateAs_add ha hb, List.rel_append has hbs, ?_⟩
    rw [List.sum_append, hasum, hbsum]
    rfl
  | @mul l r tally htally =>
    obtain ⟨he, rfl⟩ := ofProduct_eq_ok_iff.mp htally
    obtain ⟨g, hg, hd⟩ := he.evaluate_powerDerivative_of_exact hpow hbound
      (hexact _ (List.mem_singleton_self _)) x
    exact ⟨g, [g.eps], hg, .cons hd .nil, List.sum_singleton⟩
  | sinVar w =>
    obtain ⟨hval, hdual⟩ := values_of_var (by simpa using hbound) x
    refine ⟨_, [_], evaluateAs_sin hdual, .cons (evaluateAs_cos hval) .nil, ?_⟩
    rw [List.sum_singleton]
    exact (one_mul _).symm
  | cosVar w =>
    obtain ⟨hval, hdual⟩ := values_of_var (by simpa using hbound) x
    exact ⟨_, [_], evaluateAs_cos hdual, .cons (evaluateAs_mul rfl (evaluateAs_sin hval)) .nil,
      List.sum_singleton⟩
  | @sin u d us _ _ hd ih =>
    obtain ⟨g, ys, hg, hys, hsum⟩ := ih (by simpa using hbound) hexact
    -- The terms of the argument become one value before the outer derivative multiplies it.
    have hu := evaluate_of_evaluateDual hg
    have hinner := evaluate_sum hd hys
    rw [hsum] at hinner
    refine ⟨_, [_], evaluateAs_sin hg, .cons (evaluateAs_mul (evaluateAs_cos hu) hinner) .nil, ?_⟩
    rw [List.sum_singleton]
    exact mul_comm _ _
  | @cos u d us _ _ hd ih =>
    obtain ⟨g, ys, hg, hys, hsum⟩ := ih (by simpa using hbound) hexact
    have hu := evaluate_of_evaluateDual hg
    have hinner := evaluate_sum hd hys
    rw [hsum] at hinner
    refine ⟨_, [_], evaluateAs_cos hg,
      .cons (evaluateAs_mul (evaluateAs_mul rfl (evaluateAs_sin hu)) hinner) .nil, ?_⟩
    rw [List.sum_singleton]
    change -1 * Elementary.sin g.val * g.eps = -g.eps * Elementary.sin g.val
    ring

end Expr

/-- Where all coefficients are exact, the value of the derivative is at every point the derivative part of the dual number. For a tree that is a single product with a variable in it, it is so only if the coefficient is exact. -/
theorem Limits.derive_agrees_with_dual {K : Type} [Field K] [CharZero K] [BEq K] [Literal K]
    [Elementary K] [Logarithm K] (hpow : ∀ (b : K) (n : ℕ), Elementary.pow b (n : K) = b ^ n)
    {limits : Limits} {v : Var} {e d : Expr K} (hd : (limits.derive v e).outcome = .ok d) :
    ((∀ t ∈ e.productTerms, t.occurrences ≠ [] → t.HasExactCoefficient) →
        ∀ x, ∃ g, e.evaluateDual v x = .ok g ∧ d.evaluate v x = .ok g.eps) ∧
      (∀ l r, e = .mul l r → e.occurrences ≠ [] →
        (∀ x, ∃ g, e.evaluateDual v x = .ok g ∧ d.evaluate v x = .ok g.eps) →
        e.HasExactCoefficient) := by
  obtain ⟨_, _, hbound, ts, hts, hsum⟩ := outcome_derive_eq_ok_iff.mp hd
  constructor
  · intro hexact x
    obtain ⟨g, ys, hg, hys, heps⟩ := hts.exists_values hpow hbound hexact x
    refine ⟨g, hg, ?_⟩
    rw [← heps]
    exact Expr.evaluate_sum hsum hys
  · rintro l r rfl hvaries hagree
    obtain ⟨g, hdual, hrule⟩ := hagree 1
    cases hts with
    | mul htally =>
      obtain ⟨he, rfl⟩ := Expr.ofProduct_eq_ok_iff.mp htally
      obtain rfl := Except.ok.inj hsum
      exact he.exact_of_evaluate_powerDerivative hpow hbound hvaries hdual hrule

/-- The derivative of `2 · (x · x) + sin (3 · x)` over the rational numbers, with whole powers and any two functions for the sine and the cosine. -/
theorem Limits.derive_agrees_with_dual_square_add_sin :
    let _ : Elementary ℚ := ⟨fun a => 2 * a, fun a => a + 3, fun b e => b ^ e.num⟩
    let _ : Logarithm ℚ := ⟨id⟩
    let _ : Literal ℚ := ⟨fun a => .decimal (toString a), fun a => a < 0⟩
    let x : Var := ⟨0, "x"⟩
    let square : Expr ℚ := .mul (.num 2) (.mul (.var x) (.var x))
    let triple : Expr ℚ := .mul (.num 3) (.var x)
    let d := .add (Expr.powerDerivative x ⟨2, 2⟩) (.mul triple.cos (Expr.powerDerivative x ⟨3, 1⟩))
    (∀ (b : ℚ) (n : ℕ), Elementary.pow b (n : ℚ) = b ^ n) ∧
      (derive {} x (.add square triple.sin)).outcome = .ok d ∧
      ∀ a, ∃ g, (Expr.add square triple.sin).evaluateDual x a = .ok g ∧ d.evaluate x a = .ok g.eps := by
  intro _ _ _ x square triple d
  have hsquare : FactorTally.ofProduct square = .ok ⟨2, 2⟩ :=
    Expr.ofProduct_eq_ok_iff.mpr
      ⟨.mul (.num 2) (.mul (.var x) (.var x)), by simp [square, Expr.leafTally]⟩
  have htriple : FactorTally.ofProduct triple = .ok ⟨3, 1⟩ :=
    Expr.ofProduct_eq_ok_iff.mpr ⟨.mul (.num 3) (.var x), by simp [triple, Expr.leafTally]⟩
  have hpow : ∀ (b : ℚ) (n : ℕ), Elementary.pow b (n : ℚ) = b ^ n := by
    intro b n
    change b ^ (n : ℚ).num = b ^ n
    rw [Rat.num_natCast, zpow_natCast]
  have hd : (derive {} x (.add square triple.sin)).outcome = .ok d :=
    outcome_derive_eq_ok_iff.mpr
      ⟨by decide, by decide, by decide, _, .add (.mul hsquare) (.sin rfl (.mul htriple) rfl), rfl⟩
  refine ⟨hpow, hd, (derive_agrees_with_dual hpow hd).1 ?_⟩
  intro t ht _
  rcases List.mem_pair.mp ht with rfl | rfl
  · simp [Expr.HasExactCoefficient, Expr.leafTally, FactorTally.coefficient]
  · simp [Expr.HasExactCoefficient, Expr.leafTally, FactorTally.coefficient]

end Univariate
