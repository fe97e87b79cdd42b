import Univariate.Expr.Basic
import Univariate.Scalar

/-!
# Evaluation by walking the tree

A tree is evaluated with one variable bound, from left to right, and the first defect it meets is the error: another variable, or a call with a wrong number of arguments, which is noticed before any of the arguments is looked at.

The scalars of the result need not be those of the tree. `Expr.evaluateAs` reads the numbers of the tree in any type that has the operations, which gives ordinary evaluation, evaluation in another precision and evaluation by dual numbers.
-/

namespace Univariate

namespace Expr

variable {α β : Type} [Add β] [Mul β] [Elementary β]

/-- The value of the tree at `v = x`, with its numbers read by `literal`. -/
def evaluateAs (literal : α → β) (v : Var) (x : β) : Expr α → Except Error β
  | .num n => .ok (literal n)
  | .var w => if w == v then .ok x else .error (.unboundVariable w.name)
  | .add l r => do
    let a ← evaluateAs literal v x l
    let b ← evaluateAs literal v x r
    return a + b
  | .mul l r => do
    let a ← evaluateAs literal v x l
    let b ← evaluateAs literal v x r
    return a * b
  | .call .sin [u] => do
    let a ← evaluateAs literal v x u
    return Elementary.sin a
  | .call .cos [u] => do
    let a ← evaluateAs literal v x u
    return Elementary.cos a
  | .call .pow [base, exponent] => do
    let a ← evaluateAs literal v x base
    let b ← evaluateAs literal v x exponent
    return Elementary.pow a b
  | .call f args => .error (f.wrongArgumentCount args.length)

def evaluate (v : Var) (x : β) (e : Expr β) : Except Error β := e.evaluateAs id v x

section Values

variable {literal : α → β} {v : Var} {x a b : β} {l r : Expr α}

theorem evaluateAs_var {w : Var} (h : (w == v) = true) : (var w).evaluateAs literal v x = .ok x := by
  rw [evaluateAs, if_pos h]

theorem evaluateAs_add (hl : l.evaluateAs literal v x = .ok a) (hr : r.evaluateAs literal v x = .ok b) :
    (add l r).evaluateAs literal v x = .ok (a + b) := by
  rw [evaluateAs, hl, hr]
  rfl

theorem evaluateAs_mul (hl : l.evaluateAs literal v x = .ok a) (hr : r.evaluateAs literal v x = .ok b) :
    (mul l r).evaluateAs literal v x = .ok (a * b) := by
  rw [evaluateAs, hl, hr]
  rfl

theorem evaluateAs_sin (h : l.evaluateAs literal v x = .ok a) :
    l.sin.evaluateAs literal v x = .ok (Elementary.sin a) := by
  rw [sin, evaluateAs, h]
  rfl

theorem evaluateAs_cos (h : l.evaluateAs literal v x = .ok a) :
    l.cos.evaluateAs literal v x = .ok (Elementary.cos a) := by
  rw [cos, evaluateAs, h]
  rfl

theorem evaluateAs_pow (hl : l.evaluateAs literal v x = .ok a) (hr : r.evaluateAs literal v x = .ok b) :
    (l.pow r).evaluateAs literal v x = .ok (Elementary.pow a b) := by
  rw [pow, evaluateAs, hl, hr]
  rfl

theorem evaluateAs_misfit {f : Func} {args : List (Expr α)} (h : args.length ≠ f.arity) :
    (call f args).evaluateAs literal v x = .error (f.wrongArgumentCount args.length) := by
  rw [evaluateAs]
  · rintro u rfl rfl
    exact h rfl
  · rintro u rfl rfl
    exact h rfl
  · rintro base exponent rfl rfl
    exact h rfl

end Values

end Expr

namespace Abstraction

variable {α : Type} [Add α] [Mul α] [Elementary α]

def evaluate (f : Abstraction α) (x : α) : Except Error α := f.body.evaluate f.param x

/-- The value of the function at `x`, or no number where it has none. -/
def evaluateOrNan [Measured α] (f : Abstraction α) (x : α) : α :=
  match f.evaluate x with
  | .ok y => y
  | .error _ => Measured.nan

end Abstraction

end Univariate
