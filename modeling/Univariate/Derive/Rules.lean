import Univariate.Derive.FactorTally
import Univariate.Expr.Terms
import Univariate.Traced

/-!
# The rules of differentiation

A sum is differentiated term by term from left to right, and the derivatives are put together into a sum again. A number has the derivative zero and the variable has one. A product falls under the power rule, a call of the sine or the cosine under the chain rule. Nothing is simplified, and the first term that falls under no rule ends the computation.
-/

namespace Univariate

namespace Expr

variable {α : Type}

section PowerRule

variable [Zero α] [One α] [Add α] [Sub α] [Mul α] [BEq α] [Literal α]
  {γ : Type} [Count γ] [Counting α γ]

/-- The derivative of a product with coefficient `c` and power `p`: the number `c · p` times the variable raised to the number `p - 1`. -/
def powerDerivative (v : Var) (tally : FactorTally α γ) : Expr α :=
  .mul (.num (tally.coefficient * tally.power)) (pow (.var v) (.num (tally.power - 1)))

def powerRule (v : Var) (product : Expr α) : Except Error (Expr α) := do
  return powerDerivative v (← FactorTally.ofProduct product)

theorem powerRule_eq_ok_iff {v : Var} {product d : Expr α} :
    powerRule v product = .ok d ↔
      ∃ tally, FactorTally.ofProduct product = .ok tally ∧ d = powerDerivative v tally := by
  rw [powerRule, Error.bind_eq_ok_iff]
  constructor
  · rintro ⟨tally, htally, h⟩
    exact ⟨tally, htally, (Except.ok.inj h).symm⟩
  · rintro ⟨tally, htally, rfl⟩
    exact ⟨tally, htally, rfl⟩

end PowerRule

/-- The derivative of a call with the argument `u`: the derivative of the function at `u` times that of `u`, whose terms are given. The second factor is left out when `u` is a variable. -/
def chainRule (f : Func) (u outer : Expr α) (inner : Traced α (List (Expr α))) : Traced α (Expr α) :=
  match u with
  | .var _ => pure outer
  | u => do
    Traced.report (.applyingChainRule f u)
    let terms ← inner
    return .mul outer (← Traced.ofExcept (sum terms))

/-- Reports the derivative of a term and gives it as the only term of the result. -/
def finishTerm (term : Expr α) (derivative : Traced α (Expr α)) : Traced α (List (Expr α)) := do
  let d ← derivative
  Traced.report (.differentiatedTerm term d)
  return [d]

theorem outcome_finishTerm (term : Expr α) (derivative : Traced α (Expr α)) :
    (finishTerm term derivative).outcome = derivative.outcome >>= fun d => .ok [d] := by
  simp only [finishTerm, Traced.outcome_bind]
  cases derivative.outcome <;> rfl

theorem outcome_chainRule (f : Func) {u : Expr α} (hu : u.asVar? = none) (outer : Expr α)
    (inner : Traced α (List (Expr α))) :
    (chainRule f u outer inner).outcome =
      inner.outcome >>= fun us => sum us >>= fun d => .ok (.mul outer d) := by
  have hreport : (chainRule f u outer inner).outcome =
      (do
        let us ← inner
        return Expr.mul outer (← Traced.ofExcept (sum us)) : Traced α (Expr α)).outcome := by
    cases u with
    | var w => cases hu
    | _ => rfl
  rw [hreport]
  simp only [Traced.outcome_bind, Traced.outcome_ofExcept]
  rfl

theorem outcome_finishTerm_chainRule (f : Func) {u : Expr α} (hu : u.asVar? = none)
    (term outer : Expr α) (inner : Traced α (List (Expr α))) :
    (finishTerm term (chainRule f u outer inner)).outcome =
      inner.outcome >>= fun us => sum us >>= fun d => .ok [.mul outer d] := by
  rw [outcome_finishTerm, outcome_chainRule f hu]
  cases inner.outcome with
  | error error => rfl
  | ok us =>
    change (sum us >>= _) >>= _ = sum us >>= _
    cases sum us <;> rfl

variable [Zero α] [One α] [Neg α] [Add α] [Sub α] [Mul α] [BEq α] [Literal α]
  {γ : Type} [Count γ] [Counting α γ]

/-- The derivatives of the additive terms of a tree with respect to `v`, in order. -/
def deriveTerms (v : Var) : Expr α → Traced α (List (Expr α))
  | .add l r => do
    let ls ← deriveTerms v l
    let rs ← deriveTerms v r
    return ls ++ rs
  | .num n => finishTerm (.num n) (pure (.num 0))
  | .var w => finishTerm (.var w) (pure (.num 1))
  | .mul l r => finishTerm (.mul l r) (Traced.ofExcept (powerRule v (.mul l r)))
  | .call .sin [u] => finishTerm (sin u) (chainRule .sin u (cos u) (deriveTerms v u))
  | .call .cos [u] => finishTerm (cos u) (chainRule .cos u (.mul (.num (-1)) (sin u)) (deriveTerms v u))
  | .call .pow _ => Traced.fail (.unsupportedFunction Func.pow.name)
  | .call f args => Traced.fail (f.wrongArgumentCount args.length)

theorem outcome_deriveTerms_add (v : Var) (l r : Expr α) :
    (deriveTerms v (.add l r)).outcome =
      (deriveTerms v l).outcome >>= fun ls => (deriveTerms v r).outcome >>= fun rs => .ok (ls ++ rs) := by
  simp only [deriveTerms, Traced.outcome_bind]
  rfl

theorem outcome_deriveTerms_mul (v : Var) (l r : Expr α) :
    (deriveTerms v (.mul l r)).outcome = powerRule v (.mul l r) >>= fun d => .ok [d] :=
  outcome_finishTerm _ _

theorem outcome_deriveTerms_sin (v : Var) {u : Expr α} (hu : u.asVar? = none) :
    (deriveTerms v u.sin).outcome =
      (deriveTerms v u).outcome >>= fun us => sum us >>= fun d => .ok [.mul u.cos d] :=
  outcome_finishTerm_chainRule .sin hu _ _ _

theorem outcome_deriveTerms_cos (v : Var) {u : Expr α} (hu : u.asVar? = none) :
    (deriveTerms v u.cos).outcome =
      (deriveTerms v u).outcome >>= fun us => sum us >>= fun d =>
        .ok [.mul (.mul (.num (-1)) u.sin) d] :=
  outcome_finishTerm_chainRule .cos hu _ _ _

theorem outcome_deriveTerms_pow (v : Var) (args : List (Expr α)) :
    (deriveTerms v (.call .pow args)).outcome = .error (.unsupportedFunction Func.pow.name) := by
  rw [deriveTerms, Traced.outcome_fail]

theorem outcome_deriveTerms_misfit (v : Var) {f : Func} {args : List (Expr α)} (hf : f ≠ .pow)
    (hargs : args.length ≠ f.arity) :
    (deriveTerms v (.call f args)).outcome = .error (f.wrongArgumentCount args.length) := by
  cases f with
  | pow => exact absurd rfl hf
  | sin | cos =>
    match args, hargs with
    | [], _ => rfl
    | [_], hargs => exact absurd rfl hargs
    | _ :: _ :: _, _ => rfl

/-- The derivative of a tree with respect to `v`. -/
def deriveSum (v : Var) (e : Expr α) : Traced α (Expr α) := do
  Traced.ofExcept (sum (← deriveTerms v e))

end Expr

end Univariate
