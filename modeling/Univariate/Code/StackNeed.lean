import Univariate.Expr.Basic

/-!
# The stack that a tree needs

Operands are computed from left to right, and while one of them is computed the values of those before it wait on the stack. So a tree needs the stack of its first operand, one place more than that of its second, and so on. A leaf needs one place.
-/

namespace Univariate

namespace Expr

variable {α : Type}

/-- The stack for operands with the given needs, one after the other. -/
def needOfOperands : List Nat → Nat
  | [] => 0
  | [need] => need
  | need :: next :: needs => max need (needOfOperands (next :: needs) + 1)

/-- The height of stack that it takes to compute the tree. -/
def stackNeed : Expr α → Nat :=
  fold (fun _ => 1) (fun _ => 1) (fun l r => max l (r + 1)) (fun l r => max l (r + 1))
    (fun _ needs => needOfOperands needs)

@[simp] theorem stackNeed_num (n : α) : (num n).stackNeed = 1 := rfl

@[simp] theorem stackNeed_var (v : Var) : (var v : Expr α).stackNeed = 1 := rfl

@[simp] theorem stackNeed_add (l r : Expr α) : (add l r).stackNeed = max l.stackNeed (r.stackNeed + 1) := rfl

@[simp] theorem stackNeed_mul (l r : Expr α) : (mul l r).stackNeed = max l.stackNeed (r.stackNeed + 1) := rfl

theorem stackNeed_call (f : Func) (args : List (Expr α)) :
    (call f args).stackNeed = needOfOperands (args.map stackNeed) := by
  rw [stackNeed, fold_call]

@[simp] theorem stackNeed_sin (u : Expr α) : u.sin.stackNeed = u.stackNeed := by
  simp [sin, stackNeed, fold_call, needOfOperands]

@[simp] theorem stackNeed_cos (u : Expr α) : u.cos.stackNeed = u.stackNeed := by
  simp [cos, stackNeed, fold_call, needOfOperands]

@[simp] theorem stackNeed_pow (base exponent : Expr α) :
    (base.pow exponent).stackNeed = max base.stackNeed (exponent.stackNeed + 1) := by
  simp [pow, stackNeed, fold_call, needOfOperands]

end Expr

end Univariate
