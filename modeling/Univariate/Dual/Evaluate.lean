import Univariate.Dual.Basic
import Univariate.Expr.Evaluate

/-!
# Evaluation by dual numbers

A tree evaluated at the dual number `x + ε` gives its value and its derivative at `x` at once. This takes none of the rules by which trees are differentiated, so it is a second opinion on them.
-/

namespace Univariate

namespace Expr

variable {α β : Type} [Zero β] [One β] [Neg β] [Add β] [Sub β] [Mul β] [Div β] [BEq β] [Elementary β]
  [Logarithm β]

/-- The value and the derivative of the tree at `v = x`, with its numbers read by `literal`. -/
def evaluateDualAs (literal : α → β) (v : Var) (x : β) (e : Expr α) : Except Error (Dual β) :=
  e.evaluateAs (fun n => Dual.constant (literal n)) v (Dual.varying x)

def evaluateDual (v : Var) (x : β) (e : Expr β) : Except Error (Dual β) := e.evaluateDualAs id v x

end Expr

end Univariate
