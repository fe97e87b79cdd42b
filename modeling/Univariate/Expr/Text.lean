import Univariate.Expr.Basic
import Univariate.Scalar.Text

/-!
# The text of a tree

Trees are written in the usual infix form. As products bind tighter than sums, only a sum needs parentheses as a factor; a negative number gets them too, so that its sign does not look like an operator.
-/

namespace Univariate

namespace Expr

variable {α : Type} [Literal α]

/-- Whether the tree is put in parentheses as a factor. -/
def needsParens : Expr α → Bool
  | .add _ _ => true
  | .num n => Literal.isNegative n
  | _ => false

def parenthesize (needed : Bool) (text : String) : String :=
  if needed then "(" ++ text ++ ")" else text

mutual

def text : Expr α → String
  | .num n => Literal.text n
  | .var v => v.name
  | .add l r => text l ++ " + " ++ text r
  | .mul l r => parenthesize l.needsParens (text l) ++ " * " ++ parenthesize r.needsParens (text r)
  | .call f args => f.name ++ "(" ++ ", ".intercalate (argTexts args) ++ ")"

def argTexts : List (Expr α) → List String
  | [] => []
  | a :: as => text a :: argTexts as

end

theorem argTexts_eq_map (args : List (Expr α)) : argTexts args = args.map text := by
  induction args with
  | nil => rfl
  | cons a as ih => rw [argTexts, ih, List.map_cons]

end Expr

end Univariate
