import Univariate.Proofs.Derive.Derivation
import Univariate.Proofs.Expr.Variables

/-!
# What is refused, and why

Differentiation accepts exactly the differentiable trees within the limits that refer to no other variable, and it refuses every other tree with the first reason there is. The order of the reasons is that of the checks and, among the offences in the tree, that of a reader who sees a node before its operands. The rules themselves go through the tree in an order of their own: they look at the whole of a product before its value is used, and at the terms of an argument only inside the rule of the call. The statements below are one lemma for products and one for terms, each along the recursion of its rule.
-/

namespace Univariate

namespace Expr

variable {α : Type} [Literal α]

/-! ### The first offence of each kind of node -/

@[simp] theorem firstOffenceAt?_num (place : Place) (n : α) : (num n).firstOffenceAt? place = none := by
  rw [firstOffenceAt?, firstDefect_num]
  cases place <;> rfl

@[simp] theorem firstOffenceAt?_var (place : Place) (v : Var) :
    (var v : Expr α).firstOffenceAt? place = none := by
  rw [firstOffenceAt?, firstDefect_var]
  cases place <;> rfl

theorem firstOffenceAt?_mul (place : Place) (l r : Expr α) :
    (mul l r).firstOffenceAt? place = (l.firstOffenceAt? .factor).or (r.firstOffenceAt? .factor) := by
  rw [firstOffenceAt?, firstDefect_mul]
  cases place <;> rfl

/-- The operands of a product answer to it wherever it stands. -/
theorem firstOffence?_mul (l r : Expr α) :
    (mul l r).firstOffence? = (mul l r).firstOffenceAt? .factor := by
  rw [firstOffence?, firstOffenceAt?_mul, firstOffenceAt?_mul]

theorem firstOffence?_add (l r : Expr α) :
    (add l r).firstOffence? = l.firstOffence?.or r.firstOffence? := by
  rw [firstOffence?, firstOffenceAt?, firstDefect_add]
  rfl

theorem firstOffence?_sin (u : Expr α) : u.sin.firstOffence? = u.firstOffence? := by
  rw [firstOffence?, firstOffenceAt?, sin, firstDefect_call_one]
  rfl

theorem firstOffence?_cos (u : Expr α) : u.cos.firstOffence? = u.firstOffence? := by
  rw [firstOffence?, firstOffenceAt?, cos, firstDefect_call_one]
  rfl

theorem firstOffence?_pow (args : List (Expr α)) :
    (call .pow args).firstOffence? = some (.unsupportedFunction Func.pow.name) := by
  rw [firstOffence?, firstOffenceAt?]
  exact firstDefect_call_of_defect _ _ _ rfl

theorem firstOffence?_misfit {f : Func} {args : List (Expr α)} (hf : f ≠ .pow)
    (hargs : args.length ≠ f.arity) :
    (call f args).firstOffence? = some (f.wrongArgumentCount args.length) := by
  rw [firstOffence?, firstOffenceAt?]
  apply firstDefect_call_of_defect
  cases f with
  | pow => exact absurd rfl hf
  | sin => exact if_neg hargs
  | cos => exact if_neg hargs

/-! ### Products -/

theorem isProduct_of_no_offence {e : Expr α} (h : e.firstOffenceAt? .factor = none) : e.IsProduct := by
  induction e with
  | num n => exact .num n
  | var v => exact .var v
  | add l r _ _ =>
    rw [firstOffenceAt?, firstDefect_add] at h
    cases h
  | mul l r ihl ihr =>
    rw [firstOffenceAt?_mul, Option.or_eq_none_iff] at h
    exact .mul (ihl h.1) (ihr h.2)
  | call f args _ =>
    rw [firstOffenceAt?, firstDefect_call_of_defect _ _ _ rfl] at h
    cases h

theorem IsProduct.firstOffenceAt?_eq_none {e : Expr α} (h : e.IsProduct) (place : Place) :
    e.firstOffenceAt? place = none := by
  induction h generalizing place with
  | num n => exact firstOffenceAt?_num place n
  | var v => exact firstOffenceAt?_var place v
  | mul _ _ ihl ihr => rw [firstOffenceAt?_mul, ihl, ihr, Option.or_none]

section Tallies

variable [Zero α] [Add α] {γ : Type} [Count γ]

theorem IsProduct.exists_tally {e : Expr α} (h : e.IsProduct) :
    ∃ tally : FactorTally α γ, FactorTally.ofProduct e = .ok tally := by
  induction h with
  | num n => exact ⟨_, rfl⟩
  | var v => exact ⟨_, rfl⟩
  | mul _ _ ihl ihr =>
    obtain ⟨s, hs⟩ := ihl
    obtain ⟨t, ht⟩ := ihr
    refine ⟨s + t, ?_⟩
    rw [FactorTally.ofProduct, hs, ht]
    rfl

theorem ofProduct_of_offence {e : Expr α} {error : Error} (h : e.firstOffenceAt? .factor = some error) :
    (FactorTally.ofProduct e : Except Error (FactorTally α γ)) = .error error := by
  induction e generalizing error with
  | num n => simp at h
  | var v => simp at h
  | add l r _ _ =>
    rw [firstOffenceAt?, firstDefect_add] at h
    cases h
    rfl
  | mul l r ihl ihr =>
    rw [firstOffenceAt?_mul] at h
    rw [FactorTally.ofProduct]
    cases hl : l.firstOffenceAt? .factor with
    | some offence =>
      rw [hl, Option.some_or] at h
      cases h
      rw [ihl hl]
      rfl
    | none =>
      obtain ⟨s, hs⟩ := (isProduct_of_no_offence hl).exists_tally (γ := γ)
      rw [hl, Option.none_or] at h
      rw [hs, ihr h]
      rfl
  | call f args _ =>
    rw [firstOffenceAt?, firstDefect_call_of_defect _ _ _ rfl] at h
    cases h
    rfl

theorem isProduct_of_ofProduct {e : Expr α} {tally : FactorTally α γ}
    (h : FactorTally.ofProduct e = .ok tally) : e.IsProduct := by
  cases hoffence : e.firstOffenceAt? .factor with
  | some error =>
    rw [ofProduct_of_offence hoffence] at h
    cases h
  | none => exact isProduct_of_no_offence hoffence

end Tallies

/-! ### Terms -/

theorem isDifferentiable_of_no_offence {e : Expr α} (h : e.firstOffence? = none) : e.IsDifferentiable := by
  induction e using arityInduction with
  | num n => exact .num n
  | var v => exact .var v
  | add l r ihl ihr =>
    rw [firstOffence?_add, Option.or_eq_none_iff] at h
    exact .add (ihl h.1) (ihr h.2)
  | mul l r _ _ =>
    rw [firstOffence?, firstOffenceAt?_mul, Option.or_eq_none_iff] at h
    exact .mul (isProduct_of_no_offence h.1) (isProduct_of_no_offence h.2)
  | sin u ih =>
    rw [firstOffence?_sin] at h
    exact .sin (ih h)
  | cos u ih =>
    rw [firstOffence?_cos] at h
    exact .cos (ih h)
  | pow base exponent _ _ =>
    rw [pow, firstOffence?_pow] at h
    cases h
  | misfit f args hargs =>
    by_cases hf : f = .pow
    · subst hf
      rw [firstOffence?_pow] at h
      cases h
    · rw [firstOffence?_misfit hf hargs] at h
      cases h

theorem IsDifferentiable.firstOffence?_eq_none {e : Expr α} (h : e.IsDifferentiable) :
    e.firstOffence? = none := by
  induction h with
  | num n => exact firstOffenceAt?_num .free n
  | var v => exact firstOffenceAt?_var .free v
  | add _ _ ihl ihr => rw [firstOffence?_add, ihl, ihr, Option.or_none]
  | mul hl hr => exact (IsProduct.mul hl hr).firstOffenceAt?_eq_none .free
  | sin _ ih => rw [firstOffence?_sin, ih]
  | cos _ ih => rw [firstOffence?_cos, ih]

variable [Zero α] [One α] [Neg α] [Add α] [Sub α] [Mul α] [BEq α]
  {γ : Type} [Count γ] [Counting α γ]

theorem DerivesTo.ne_nil {v : Var} {e : Expr α} {ts : List (Expr α)} (h : DerivesTo v e ts) : ts ≠ [] := by
  induction h with
  | add _ _ ihl _ => exact List.append_ne_nil_of_left_ne_nil ihl _
  | _ => exact List.cons_ne_nil _ _

theorem DerivesTo.exists_sum {v : Var} {e : Expr α} {ts : List (Expr α)} (h : DerivesTo v e ts) :
    ∃ d, sum ts = .ok d := by
  obtain ⟨u, us, rfl⟩ := List.exists_cons_of_ne_nil h.ne_nil
  exact ⟨_, rfl⟩

theorem DerivesTo.isDifferentiable {v : Var} {e : Expr α} {ts : List (Expr α)} (h : DerivesTo v e ts) :
    e.IsDifferentiable := by
  induction h with
  | num n => exact .num n
  | var w => exact .var w
  | add _ _ ihl ihr => exact .add ihl ihr
  | mul htally =>
    cases isProduct_of_ofProduct htally with
    | mul hl hr => exact .mul hl hr
  | sinVar w => exact .sin (.var w)
  | cosVar w => exact .cos (.var w)
  | sin _ _ _ ih => exact .sin ih
  | cos _ _ _ ih => exact .cos ih

theorem IsDifferentiable.exists_derivesTo {e : Expr α} (h : e.IsDifferentiable) (v : Var) :
    ∃ ts, DerivesTo v e ts := by
  induction h with
  | num n => exact ⟨_, .num n⟩
  | var w => exact ⟨_, .var w⟩
  | add _ _ ihl ihr =>
    obtain ⟨ls, hl⟩ := ihl
    obtain ⟨rs, hr⟩ := ihr
    exact ⟨ls ++ rs, .add hl hr⟩
  | mul hl hr =>
    obtain ⟨tally, htally⟩ := (IsProduct.mul hl hr).exists_tally (γ := γ)
    exact ⟨_, .mul htally⟩
  | @sin u _ ih =>
    cases hu : u.asVar? with
    | some w =>
      obtain rfl := asVar?_eq_some_iff.mp hu
      exact ⟨_, .sinVar w⟩
    | none =>
      obtain ⟨us, hus⟩ := ih
      obtain ⟨d, hd⟩ := hus.exists_sum
      exact ⟨_, .sin hu hus hd⟩
  | @cos u _ ih =>
    cases hu : u.asVar? with
    | some w =>
      obtain rfl := asVar?_eq_some_iff.mp hu
      exact ⟨_, .cosVar w⟩
    | none =>
      obtain ⟨us, hus⟩ := ih
      obtain ⟨d, hd⟩ := hus.exists_sum
      exact ⟨_, .cos hu hus hd⟩

theorem outcome_deriveTerms_of_offence (v : Var) {e : Expr α} {error : Error}
    (h : e.firstOffence? = some error) : (deriveTerms v e).outcome = .error error := by
  induction e using arityInduction generalizing error with
  | num n => cases h
  | var w => cases h
  | add l r ihl ihr =>
    -- An offence on the right shows only when the left operand has a derivative.
    rw [firstOffence?_add] at h
    rw [outcome_deriveTerms_add]
    cases hl : l.firstOffence? with
    | some offence =>
      rw [hl, Option.some_or] at h
      cases h
      rw [ihl hl]
      rfl
    | none =>
      obtain ⟨ls, hls⟩ := (isDifferentiable_of_no_offence hl).exists_derivesTo v
      rw [hl, Option.none_or] at h
      rw [hls.outcome_eq, ihr h]
      rfl
  | mul l r _ _ =>
    rw [firstOffence?_mul] at h
    rw [outcome_deriveTerms_mul, powerRule, ofProduct_of_offence h]
    rfl
  | sin u ih =>
    rw [firstOffence?_sin] at h
    cases hu : u.asVar? with
    | some w =>
      obtain rfl := asVar?_eq_some_iff.mp hu
      cases h
    | none =>
      rw [outcome_deriveTerms_sin v hu, ih h]
      rfl
  | cos u ih =>
    rw [firstOffence?_cos] at h
    cases hu : u.asVar? with
    | some w =>
      obtain rfl := asVar?_eq_some_iff.mp hu
      cases h
    | none =>
      rw [outcome_deriveTerms_cos v hu, ih h]
      rfl
  | pow base exponent _ _ =>
    rw [pow, firstOffence?_pow] at h
    cases h
    exact outcome_deriveTerms_pow v _
  | misfit f args hargs =>
    by_cases hf : f = .pow
    · subst hf
      rw [firstOffence?_pow] at h
      cases h
      exact outcome_deriveTerms_pow v args
    · rw [firstOffence?_misfit hf hargs] at h
      cases h
      exact outcome_deriveTerms_misfit v hf hargs

theorem outcome_deriveSum_of_offence (v : Var) {e : Expr α} {error : Error}
    (h : e.firstOffence? = some error) : (deriveSum v e).outcome = .error error := by
  rw [deriveSum, Traced.outcome_bind, outcome_deriveTerms_of_offence v h]
  rfl

end Expr

/-! ### Within limits -/

namespace Limits

variable {α : Type} [Literal α]

theorem refusal?_eq_none_iff {limits : Limits} {v : Var} {e : Expr α} :
    limits.refusal? v e = none ↔
      e.maxDepth ≤ limits.maxDepth ∧ e.nodeCount ≤ limits.maxNodes ∧ e.boundBy v = true ∧
        e.IsDifferentiable := by
  rw [refusal?]
  by_cases hdepth : limits.maxDepth < e.maxDepth
  · have hover : ¬ e.maxDepth ≤ limits.maxDepth := by omega
    simp [hdepth, hover]
  by_cases hnodes : limits.maxNodes < e.nodeCount
  · have hover : ¬ e.nodeCount ≤ limits.maxNodes := by omega
    simp [hdepth, hnodes, hover]
  have hd : e.maxDepth ≤ limits.maxDepth := by omega
  have hn : e.nodeCount ≤ limits.maxNodes := by omega
  rw [if_neg hdepth, if_neg hnodes, ← Expr.find?_occurrences_eq_none_iff]
  cases e.occurrences.find? fun w => !(w == v) with
  | some w => simp
  | none =>
    simp only [hd, hn, true_and]
    exact ⟨Expr.isDifferentiable_of_no_offence, Expr.IsDifferentiable.firstOffence?_eq_none⟩

variable [Zero α] [One α] [Neg α] [Add α] [Sub α] [Mul α] [BEq α]
  {γ : Type} [Count γ] [Counting α γ]

theorem outcome_derive (limits : Limits) (v : Var) (e : Expr α) :
    (limits.derive v e).outcome =
      if limits.maxDepth < e.maxDepth then .error .tooDeep
      else if limits.maxNodes < e.nodeCount then .error .tooLarge
      else match e.occurrences.find? fun w => !(w == v) with
        | some w => .error (.unboundVariable w.name)
        | none => (e.deriveSum v).outcome := by
  simp only [derive, Traced.outcome_bind, Traced.outcome_ofExcept, check, checkBound,
    Expr.stranger?_eq_find?]
  split
  · rfl
  · split
    · rfl
    · cases e.occurrences.find? fun w => !(w == v) <;> rfl

theorem outcome_derive_of_refusal {limits : Limits} {v : Var} {e : Expr α} {error : Error}
    (h : limits.refusal? v e = some error) : (limits.derive v e).outcome = .error error := by
  rw [refusal?] at h
  rw [outcome_derive]
  by_cases hdepth : limits.maxDepth < e.maxDepth
  · rw [if_pos hdepth] at h ⊢
    exact congrArg Except.error (Option.some.inj h)
  rw [if_neg hdepth] at h ⊢
  by_cases hnodes : limits.maxNodes < e.nodeCount
  · rw [if_pos hnodes] at h ⊢
    exact congrArg Except.error (Option.some.inj h)
  rw [if_neg hnodes] at h ⊢
  cases hw : e.occurrences.find? fun w => !(w == v) with
  | some w =>
    rw [hw] at h
    exact congrArg Except.error (Option.some.inj h)
  | none =>
    rw [hw] at h
    exact Expr.outcome_deriveSum_of_offence v h

theorem outcome_derive_of_accepted {limits : Limits} {v : Var} {e : Expr α}
    (h : limits.refusal? v e = none) : (limits.derive v e).outcome = (e.deriveSum v).outcome := by
  obtain ⟨hdepth, hnodes, hbound, _⟩ := refusal?_eq_none_iff.mp h
  rw [outcome_derive, if_neg (by omega), if_neg (by omega),
    Expr.find?_occurrences_eq_none_iff.mpr hbound]

/-- A result is the sum of the terms of a derivation for a tree that passes the checks. -/
theorem outcome_derive_eq_ok_iff {limits : Limits} {v : Var} {e d : Expr α} :
    (limits.derive v e).outcome = .ok d ↔
      e.maxDepth ≤ limits.maxDepth ∧ e.nodeCount ≤ limits.maxNodes ∧ e.boundBy v = true ∧
        ∃ ts, e.DerivesTo v ts ∧ Expr.sum ts = .ok d := by
  constructor
  · intro h
    cases hrefusal : limits.refusal? v e with
    | some error =>
      rw [outcome_derive_of_refusal hrefusal] at h
      cases h
    | none =>
      obtain ⟨hdepth, hnodes, hbound, _⟩ := refusal?_eq_none_iff.mp hrefusal
      rw [outcome_derive_of_accepted hrefusal] at h
      exact ⟨hdepth, hnodes, hbound, Expr.outcome_deriveSum_eq_ok_iff.mp h⟩
  · rintro ⟨hdepth, hnodes, hbound, ts, hts, hsum⟩
    have haccepted : limits.refusal? v e = none :=
      refusal?_eq_none_iff.mpr ⟨hdepth, hnodes, hbound, hts.isDifferentiable⟩
    rw [outcome_derive_of_accepted haccepted]
    exact Expr.outcome_deriveSum_eq_ok_iff.mpr ⟨ts, hts, hsum⟩

theorem exists_outcome_derive {limits : Limits} {v : Var} {e : Expr α}
    (h : limits.refusal? v e = none) : ∃ d, (limits.derive v e).outcome = .ok d := by
  obtain ⟨hdepth, hnodes, hbound, hdifferentiable⟩ := refusal?_eq_none_iff.mp h
  obtain ⟨ts, hts⟩ := hdifferentiable.exists_derivesTo v
  obtain ⟨d, hd⟩ := hts.exists_sum
  exact ⟨d, outcome_derive_eq_ok_iff.mpr ⟨hdepth, hnodes, hbound, ts, hts, hd⟩⟩

/-- Differentiation fails exactly with the first reason to refuse the tree, and it succeeds exactly on the differentiable trees within the limits that refer to no other variable. -/
theorem derive_accepts_differentiable (limits : Limits) (v : Var) (e : Expr α) :
    (∀ error, (limits.derive v e).outcome = .error error ↔ limits.refusal? v e = some error) ∧
      ((∃ d, (limits.derive v e).outcome = .ok d) ↔
        e.maxDepth ≤ limits.maxDepth ∧ e.nodeCount ≤ limits.maxNodes ∧ e.boundBy v = true ∧
          e.IsDifferentiable) := by
  rw [← refusal?_eq_none_iff]
  cases h : limits.refusal? v e with
  | some reason =>
    have hrefused := outcome_derive_of_refusal h
    constructor
    · intro error
      rw [hrefused, Except.error.injEq, Option.some.injEq]
    · simp [hrefused]
  | none =>
    obtain ⟨d, hd⟩ := exists_outcome_derive h
    simp [hd]

end Limits

end Univariate
