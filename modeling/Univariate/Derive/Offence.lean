import Univariate.Derive.Limits
import Univariate.Expr.Preorder
import Univariate.Expr.Scope

/-!
# The language of differentiable trees

The rules of differentiation cover sums of numbers, variables, products of numbers and variables, and calls of the sine and the cosine whose arguments are covered again. Everything else in a tree is an offence. Which nodes offend depends on where they stand: a power is no offence as such inside a product, where the product has to answer for the call that holds it. A tree is refused with the offence that a reader meets first.
-/

namespace Univariate

namespace Expr

variable {α : Type}

/-- Products of numbers and variables, in any nesting. -/
inductive IsProduct : Expr α → Prop where
  | num (n : α) : IsProduct (.num n)
  | var (v : Var) : IsProduct (.var v)
  | mul {l r : Expr α} : IsProduct l → IsProduct r → IsProduct (.mul l r)

/-- Trees to which the rules of differentiation apply. -/
inductive IsDifferentiable : Expr α → Prop where
  | num (n : α) : IsDifferentiable (.num n)
  | var (v : Var) : IsDifferentiable (.var v)
  | add {l r : Expr α} : IsDifferentiable l → IsDifferentiable r → IsDifferentiable (.add l r)
  | mul {l r : Expr α} : IsProduct l → IsProduct r → IsDifferentiable (.mul l r)
  | sin {u : Expr α} : IsDifferentiable u → IsDifferentiable u.sin
  | cos {u : Expr α} : IsDifferentiable u → IsDifferentiable u.cos

/-- Where a node stands with respect to the products above it. -/
inductive Place where
  /-- No product is above the node. -/
  | free
  /-- The node is an operand of a product. -/
  | factor
  /-- A product is above the node, but the node is not its operand. -/
  | buried

def Place.below : Place → Expr α → Place
  | _, .mul _ _ => .factor
  | .free, _ => .free
  | _, _ => .buried

variable [Literal α]

/-- The offence of a node at its place: a power or a call with a wrong number of arguments outside of all products, and a sum or a call as a factor. -/
def offence? : Place → Expr α → Option Error
  | .free, .call .pow _ => some (.unsupportedFunction Func.pow.name)
  | .free, .call f args => if args.length = f.arity then none else some (f.wrongArgumentCount args.length)
  | .factor, .add l r => some (.invalidShape ("'" ++ (add l r).text ++ "' inside a product term"))
  | .factor, .call f args => some (.invalidShape ("'" ++ (call f args).text ++ "' inside a product term"))
  | _, _ => none

def firstOffenceAt? (place : Place) (e : Expr α) : Option Error :=
  e.firstDefect (fun place node _ => place.below node) offence? place

def firstOffence? (e : Expr α) : Option Error := e.firstOffenceAt? .free

end Expr

/-- The error with which a tree is refused, if it is: the limits come before the variables, and both before the rules. -/
def Limits.refusal? {α : Type} [Literal α] (limits : Limits) (v : Var) (e : Expr α) : Option Error :=
  if limits.maxDepth < e.maxDepth then some .tooDeep
  else if limits.maxNodes < e.nodeCount then some .tooLarge
  else match e.occurrences.find? fun w => !(w == v) with
    | some w => some (.unboundVariable w.name)
    | none => e.firstOffence?

end Univariate
