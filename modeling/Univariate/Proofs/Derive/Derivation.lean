import Univariate.Derive.Offence

/-!
# Derivations

The rules of differentiation as an inductive relation between a tree and the derivatives of its additive terms. A derivation says which rule was used for each term, and an induction on it goes through the rules alone, without the events that are reported on the way and without the terms that fall under no rule. The main statement is that differentiation succeeds with a result exactly when there is a derivation of it.
-/

namespace Univariate

namespace Expr

variable {α : Type} [Zero α] [One α] [Neg α] [Add α] [Sub α] [Mul α] [BEq α] [Literal α]
  {γ : Type} [Count γ] [Counting α γ]

/-- The additive terms of the tree have these derivatives with respect to `v`. -/
inductive DerivesTo (v : Var) : Expr α → List (Expr α) → Prop where
  | num (n : α) : DerivesTo v (.num n) [.num 0]
  | var (w : Var) : DerivesTo v (.var w) [.num 1]
  | add {l r : Expr α} {ls rs : List (Expr α)} :
    DerivesTo v l ls → DerivesTo v r rs → DerivesTo v (.add l r) (ls ++ rs)
  | mul {l r : Expr α} {tally : FactorTally α γ} :
    FactorTally.ofProduct (.mul l r) = .ok tally → DerivesTo v (.mul l r) [powerDerivative v tally]
  | sinVar (w : Var) : DerivesTo v (sin (.var w)) [cos (.var w)]
  | cosVar (w : Var) : DerivesTo v (cos (.var w)) [.mul (.num (-1)) (sin (.var w))]
  | sin {u d : Expr α} {us : List (Expr α)} : u.asVar? = none → DerivesTo v u us → sum us = .ok d →
    DerivesTo v u.sin [.mul u.cos d]
  | cos {u d : Expr α} {us : List (Expr α)} : u.asVar? = none → DerivesTo v u us → sum us = .ok d →
    DerivesTo v u.cos [.mul (.mul (.num (-1)) u.sin) d]

/-! ### Differentiation follows the rules -/

theorem DerivesTo.outcome_eq {v : Var} {e : Expr α} {ts : List (Expr α)} (h : DerivesTo v e ts) :
    (deriveTerms v e).outcome = .ok ts := by
  induction h with
  | num n => rfl
  | var w => rfl
  | add _ _ ihl ihr =>
    rw [outcome_deriveTerms_add, ihl, ihr]
    rfl
  | mul htally =>
    rw [outcome_deriveTerms_mul, powerRule_eq_ok_iff.mpr ⟨_, htally, rfl⟩]
    rfl
  | sinVar w => rfl
  | cosVar w => rfl
  | sin hu _ hd ih =>
    rw [outcome_deriveTerms_sin v hu, ih]
    change sum _ >>= _ = _
    rw [hd]
    rfl
  | cos hu _ hd ih =>
    rw [outcome_deriveTerms_cos v hu, ih]
    change sum _ >>= _ = _
    rw [hd]
    rfl

theorem DerivesTo.of_outcome {v : Var} {e : Expr α} {ts : List (Expr α)}
    (h : (deriveTerms v e).outcome = .ok ts) : DerivesTo v e ts := by
  induction e using arityInduction generalizing ts with
  | num n =>
    cases h
    exact .num n
  | var w =>
    cases h
    exact .var w
  | add l r ihl ihr =>
    rw [outcome_deriveTerms_add, Error.bind_eq_ok_iff] at h
    obtain ⟨ls, hl, h⟩ := h
    obtain ⟨rs, hr, h⟩ := Error.bind_eq_ok_iff.mp h
    cases h
    exact .add (ihl hl) (ihr hr)
  | mul l r _ _ =>
    rw [outcome_deriveTerms_mul, Error.bind_eq_ok_iff] at h
    obtain ⟨d, hd, h⟩ := h
    cases h
    obtain ⟨tally, htally, rfl⟩ := powerRule_eq_ok_iff.mp hd
    exact .mul htally
  | sin u ih =>
    cases hu : u.asVar? with
    | some w =>
      obtain rfl := asVar?_eq_some_iff.mp hu
      cases h
      exact .sinVar w
    | none =>
      rw [outcome_deriveTerms_sin v hu, Error.bind_eq_ok_iff] at h
      obtain ⟨us, hus, h⟩ := h
      obtain ⟨d, hd, h⟩ := Error.bind_eq_ok_iff.mp h
      cases h
      exact .sin hu (ih hus) hd
  | cos u ih =>
    cases hu : u.asVar? with
    | some w =>
      obtain rfl := asVar?_eq_some_iff.mp hu
      cases h
      exact .cosVar w
    | none =>
      rw [outcome_deriveTerms_cos v hu, Error.bind_eq_ok_iff] at h
      obtain ⟨us, hus, h⟩ := h
      obtain ⟨d, hd, h⟩ := Error.bind_eq_ok_iff.mp h
      cases h
      exact .cos hu (ih hus) hd
  | pow base exponent _ _ => cases h
  | misfit f args hargs =>
    by_cases hf : f = .pow
    · subst hf
      rw [outcome_deriveTerms_pow] at h
      cases h
    · rw [outcome_deriveTerms_misfit v hf hargs] at h
      cases h

theorem outcome_deriveTerms_eq_ok_iff {v : Var} {e : Expr α} {ts : List (Expr α)} :
    (deriveTerms v e).outcome = .ok ts ↔ DerivesTo v e ts :=
  ⟨DerivesTo.of_outcome, DerivesTo.outcome_eq⟩

theorem outcome_deriveSum_eq_ok_iff {v : Var} {e d : Expr α} :
    (deriveSum v e).outcome = .ok d ↔ ∃ ts, DerivesTo v e ts ∧ sum ts = .ok d := by
  rw [deriveSum, Traced.outcome_bind, Error.bind_eq_ok_iff]
  simp only [Traced.outcome_ofExcept, outcome_deriveTerms_eq_ok_iff]

end Expr

end Univariate
