import Univariate.Expr.Basic

/-!
# Equality of trees

Trees are equal when they have the same structure, the same variables and numbers that compare as equal. So this equality inherits the oddities of the comparison of numbers: both zeros may be the same, and a tree that holds a number unequal to itself is unequal to itself.
-/

namespace Univariate

namespace Expr

variable {α : Type} [BEq α]

mutual

def equal : Expr α → Expr α → Bool
  | .num m, .num n => m == n
  | .var v, .var w => v == w
  | .add l r, .add l' r' => equal l l' && equal r r'
  | .mul l r, .mul l' r' => equal l l' && equal r r'
  | .call f args, .call g args' => f == g && equalArgs args args'
  | _, _ => false

def equalArgs : List (Expr α) → List (Expr α) → Bool
  | [], [] => true
  | a :: as, b :: bs => equal a b && equalArgs as bs
  | _, _ => false

end

instance : BEq (Expr α) := ⟨equal⟩

end Expr

/-- Functions are equal when they bind the same variable and have equal bodies. -/
instance {α : Type} [BEq α] : BEq (Abstraction α) := ⟨fun f g => f.param == g.param && f.body == g.body⟩

end Univariate
