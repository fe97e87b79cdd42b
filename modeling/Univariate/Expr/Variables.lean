import Univariate.Expr.Basic

/-!
# The variables of a tree

`Expr.vars` lists every variable of a tree once, in the order in which a reader going from left to right first meets them.
-/

namespace Univariate

namespace Expr

variable {α : Type}

def containsVar (v : Var) : Expr α → Bool :=
  fold (fun _ => false) (fun w => w == v) (· || ·) (· || ·) (fun _ bs => bs.any id)

@[simp] theorem containsVar_add (v : Var) (l r : Expr α) :
    (add l r).containsVar v = (l.containsVar v || r.containsVar v) := rfl

@[simp] theorem containsVar_mul (v : Var) (l r : Expr α) :
    (mul l r).containsVar v = (l.containsVar v || r.containsVar v) := rfl

@[simp] theorem containsVar_call (v : Var) (f : Func) (args : List (Expr α)) :
    (call f args).containsVar v = args.any (containsVar v) := by
  simp [containsVar, fold_call, List.any_map]

@[simp] theorem containsVar_sin (v : Var) (u : Expr α) : u.sin.containsVar v = u.containsVar v := by
  simp [sin]

@[simp] theorem containsVar_cos (v : Var) (u : Expr α) : u.cos.containsVar v = u.containsVar v := by
  simp [cos]

@[simp] theorem containsVar_pow (v : Var) (base exponent : Expr α) :
    (base.pow exponent).containsVar v = (base.containsVar v || exponent.containsVar v) := by
  simp [pow]

mutual

/-- The list `seen`, followed by the variables of the tree that it does not hold yet. -/
def addVariables (seen : List Var) : Expr α → List Var
  | .num _ => seen
  | .var v => if seen.contains v then seen else seen ++ [v]
  | .add l r => addVariables (addVariables seen l) r
  | .mul l r => addVariables (addVariables seen l) r
  | .call _ args => addArgVariables seen args

def addArgVariables (seen : List Var) : List (Expr α) → List Var
  | [] => seen
  | a :: as => addArgVariables (addVariables seen a) as

end

/-- The distinct variables of the tree in the order of their first occurrences. -/
def vars (e : Expr α) : List Var := e.addVariables []

/-- The first variable of the tree other than `v`, if there is one. -/
def stranger? (v : Var) (e : Expr α) : Option Var := e.vars.find? (fun w => !(w == v))

end Expr

end Univariate
