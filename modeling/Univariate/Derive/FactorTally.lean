import Univariate.Expr.Leaves
import Univariate.Expr.Text

/-!
# Tallies of factors

The power rule reads a product as a coefficient times a power of the variable. What it knows of the product is a tally of its factors: the sum of the numbers and the count of the variables among them.

The numbers are added up, not multiplied, so the coefficient is the product of the numbers only where the two agree, as for a single number. A sum of zero counts as no number at all and stands for the coefficient one; hence an explicit factor of zero is lost. The variables are counted in 32 bits, and a product with `2 ^ 32` of them passes for one without any. Scalars that are to be exact go with a count that is not bounded.
-/

namespace Univariate

/-- The sum of the numbers and the count of the variables among the factors of a product. -/
structure FactorTally (α : Type) (γ : Type := UInt32) where
  constantSum : α
  variableCount : γ

namespace FactorTally

variable {α γ : Type}

def coefficient [Zero α] [One α] [BEq α] (tally : FactorTally α γ) : α :=
  if tally.constantSum == 0 then 1 else tally.constantSum

def power [Counting α γ] (tally : FactorTally α γ) : α := Counting.toScalar tally.variableCount

instance [BEq α] [BEq γ] : BEq (FactorTally α γ) :=
  ⟨fun s t => s.constantSum == t.constantSum && s.variableCount == t.variableCount⟩

variable [Count γ]

instance [Zero α] : Zero (FactorTally α γ) := ⟨⟨0, Count.ofNat 0⟩⟩

instance [Add α] : Add (FactorTally α γ) :=
  ⟨fun s t => ⟨s.constantSum + t.constantSum, Count.add s.variableCount t.variableCount⟩⟩

variable [Zero α] [Add α] [Literal α]

/-- The tally of a product of numbers and variables. The first other factor from the left is an error. -/
def ofProduct : Expr α → Except Error (FactorTally α γ)
  | .num n => .ok ⟨n, Count.ofNat 0⟩
  | .var _ => .ok ⟨0, Count.ofNat 1⟩
  | .mul l r => do
    let s ← ofProduct l
    let t ← ofProduct r
    return s + t
  | e => .error (.invalidShape ("'" ++ e.text ++ "' inside a product term"))

theorem ofProduct_add (l r : Expr α) :
    (ofProduct (.add l r) : Except Error (FactorTally α γ)) =
      .error (.invalidShape ("'" ++ (Expr.add l r).text ++ "' inside a product term")) := rfl

theorem ofProduct_call (f : Func) (args : List (Expr α)) :
    (ofProduct (.call f args) : Except Error (FactorTally α γ)) =
      .error (.invalidShape ("'" ++ (Expr.call f args).text ++ "' inside a product term")) := rfl

end FactorTally

namespace Expr

variable {α : Type} [Zero α] [Add α]

/-- The tally of all leaves of a tree, counted without bound. -/
def leafTally (e : Expr α) : FactorTally α Nat := ⟨e.numbers.sum, e.occurrences.length⟩

/-- Whether the coefficient that is read off a product is the product of its numbers. -/
def HasExactCoefficient [One α] [Mul α] [BEq α] (product : Expr α) : Prop :=
  product.leafTally.coefficient = product.numbers.prod

end Expr

end Univariate
