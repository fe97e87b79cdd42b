import Univariate.Derive.Rules

/-!
# The rule for a single term

Which rule a term falls under is decided by the node at its top. A sum falls under none of them, and is not needed to, because the terms of a tree are what its sums put together.
-/

namespace Univariate

namespace Expr

variable {α : Type} [Zero α] [One α] [Neg α] [Add α] [Sub α] [Mul α] [BEq α] [Literal α]
  {γ : Type} [Count γ] [Counting α γ]

/-- The derivative that the rules give to a tree as one term. -/
def termRule (v : Var) : Expr α → Traced α (Expr α)
  | .num _ => pure (.num 0)
  | .var _ => pure (.num 1)
  | .add l r =>
    Traced.fail (.invalidShape ("'" ++ (add l r).text ++ "' is neither the variable nor a product"))
  | .mul l r => Traced.ofExcept (powerRule v (.mul l r))
  | .call .sin [u] => chainRule .sin u u.cos (deriveTerms v u)
  | .call .cos [u] => chainRule .cos u (.mul (.num (-1)) u.sin) (deriveTerms v u)
  | .call .pow _ => Traced.fail (.unsupportedFunction Func.pow.name)
  | .call f args => Traced.fail (f.wrongArgumentCount args.length)

def deriveTerm (v : Var) (term : Expr α) : Traced α (Expr α) := do
  let d ← termRule v term
  Traced.report (.differentiatedTerm term d)
  return d

end Expr

end Univariate
