import Univariate.Derive.Rules
import Univariate.Expr.Variables

/-!
# Differentiation within limits

Before any rule is applied a tree is checked: it must not be nested too deeply, must not have too many nodes, and must refer to no variable but the one it is differentiated by. The checks come in this order, and a tree that fails one reports nothing of the rules.
-/

namespace Univariate

structure Limits where
  maxDepth : Nat := 100
  maxNodes : Nat := 10000

namespace Limits

variable {α : Type}

def check (limits : Limits) (e : Expr α) : Except Error Unit :=
  if e.maxDepth > limits.maxDepth then .error .tooDeep
  else if e.nodeCount > limits.maxNodes then .error .tooLarge
  else .ok ()

theorem check_eq_ok_iff {limits : Limits} {e : Expr α} :
    limits.check e = .ok () ↔ e.maxDepth ≤ limits.maxDepth ∧ e.nodeCount ≤ limits.maxNodes := by
  rw [check]
  split
  case isTrue hdepth => simp [Nat.not_le.mpr hdepth]
  case isFalse hdepth =>
    split
    case isTrue hnodes => simp [Nat.not_le.mpr hnodes]
    case isFalse hnodes => simp [Nat.not_lt.mp hdepth, Nat.not_lt.mp hnodes]

def checkBound (v : Var) (e : Expr α) : Except Error Unit :=
  match e.stranger? v with
  | some w => .error (.unboundVariable w.name)
  | none => .ok ()

variable [Zero α] [One α] [Neg α] [Add α] [Sub α] [Mul α] [BEq α] [Literal α]
  {γ : Type} [Count γ] [Counting α γ]

def derive (limits : Limits) (v : Var) (e : Expr α) : Traced α (Expr α) := do
  Traced.ofExcept (limits.check e)
  Traced.ofExcept (checkBound v e)
  e.deriveSum v

end Limits

end Univariate
