import Univariate.Derivative
import Univariate.Expr.Evaluate

/-!
# Finite differences

A derivative is checked against the slope of the function over a short interval around each of some points. The function is evaluated by walking its tree and the derivative by its program, so the check covers the rules and the compilation together.
-/

namespace Univariate

/-- The slope of `f` between `x - h` and `x + h`. -/
def centralDifference {α : Type} [One α] [Add α] [Sub α] [Mul α] [Div α] (f : α → α) (x h : α) : α :=
  (f (x + h) - f (x - h)) / ((1 + 1) * h)

variable {α : Type} [Zero α] [One α] [Add α] [Sub α] [Mul α] [Div α] [Max α] [Elementary α] [Measured α]

/-- The larger of `worst` and the gap between slope and derivative at `x`; a point where one of the two is not finite does not count. -/
def Derivative.widenGap (d : Derivative α) (f : Abstraction α) (h worst x : α) : α :=
  let numeric := centralDifference f.evaluateOrNan x h
  let symbolic := d.evaluate x
  if Measured.isFinite numeric && Measured.isFinite symbolic then
    max worst (Measured.abs (numeric - symbolic))
  else worst

/-- The largest gap between slope and derivative over the points. It is an error if the function cannot be evaluated at one of them. -/
def Derivative.maxFiniteDifferenceError (d : Derivative α) (f : Abstraction α) (points : List α) (h : α) :
    Except Error α :=
  points.foldlM (fun worst x => do
    let _ ← f.evaluate x
    return d.widenGap f h worst x) 0

end Univariate
