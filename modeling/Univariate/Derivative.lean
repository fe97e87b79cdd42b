import Univariate.Code.Program
import Univariate.Derive.Limits

/-!
# Derivatives of functions

The derivative of a function is a function of the same variable, together with the program that computes it. It can be differentiated again like any other function.
-/

namespace Univariate

structure Derivative (α : Type) where
  function : Abstraction α
  program : Program α

namespace Limits

variable {α : Type} [Zero α] [One α] [Neg α] [Add α] [Sub α] [Mul α] [BEq α]
  {γ : Type} [Count γ] [Counting α γ]
  [DecidableEq α] [Literal α]

def differentiate (limits : Limits) (f : Abstraction α) : Traced α (Derivative α) := do
  Traced.report (.differentiating f.body f.param)
  let body ← limits.derive f.param f.body
  let program ← Traced.ofExcept (Program.compile body f.param)
  Traced.report (.compiled body.nodeCount program.code.size program.pool.size program.stackSize)
  Traced.report (.differentiated body)
  return ⟨⟨f.param, body⟩, program⟩

/-- The first `order` derivatives of a function. If one of them does not exist its error is the last entry. -/
def higherDerivatives (limits : Limits) : (order : Nat) → Abstraction α → List (Except Error (Derivative α))
  | 0, _ => []
  | order + 1, f =>
    match (limits.differentiate f).outcome with
    | .ok d => .ok d :: higherDerivatives limits order d.function
    | .error error => [.error error]

end Limits

def Derivative.evaluate {α : Type} [Add α] [Mul α] [Elementary α] [Measured α] (d : Derivative α) (x : α) : α :=
  d.program.evaluate x

end Univariate
