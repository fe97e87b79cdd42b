import Univariate.Expr.Leaves

/-!
# Well-formed trees

A tree can be evaluated with one variable bound when it refers to no other variable and every call in it has as many arguments as its function takes. Both are properties of the tree alone, and neither the point nor the scalars have a part in them.
-/

namespace Univariate

namespace Expr

variable {α : Type}

/-- Whether every call in the tree has as many arguments as its function takes. -/
def callsFit : Expr α → Bool :=
  fold (fun _ => true) (fun _ => true) (· && ·) (· && ·)
    (fun f bs => bs.length == f.arity && bs.all id)

/-- Whether the tree refers to no variable but `v`. -/
def boundBy (v : Var) (e : Expr α) : Bool := e.occurrences.all fun w => w == v

@[simp] theorem callsFit_num (n : α) : (num n).callsFit = true := rfl

@[simp] theorem callsFit_var (v : Var) : (var v : Expr α).callsFit = true := rfl

@[simp] theorem callsFit_add (l r : Expr α) : (add l r).callsFit = (l.callsFit && r.callsFit) := rfl

@[simp] theorem callsFit_mul (l r : Expr α) : (mul l r).callsFit = (l.callsFit && r.callsFit) := rfl

@[simp] theorem callsFit_call (f : Func) (args : List (Expr α)) :
    (call f args).callsFit = (args.length == f.arity && args.all callsFit) := by
  simp [callsFit, fold_call, List.all_map]

@[simp] theorem callsFit_sin (u : Expr α) : u.sin.callsFit = u.callsFit := by
  simp [sin, Func.arity]

@[simp] theorem callsFit_cos (u : Expr α) : u.cos.callsFit = u.callsFit := by
  simp [cos, Func.arity]

@[simp] theorem callsFit_pow (base exponent : Expr α) :
    (base.pow exponent).callsFit = (base.callsFit && exponent.callsFit) := by
  simp [pow, Func.arity]

@[simp] theorem boundBy_num (v : Var) (n : α) : (num n).boundBy v = true := rfl

@[simp] theorem boundBy_var (v w : Var) : (var w : Expr α).boundBy v = (w == v) := by
  simp [boundBy]

@[simp] theorem boundBy_add (v : Var) (l r : Expr α) :
    (add l r).boundBy v = (l.boundBy v && r.boundBy v) := by
  simp [boundBy]

@[simp] theorem boundBy_mul (v : Var) (l r : Expr α) :
    (mul l r).boundBy v = (l.boundBy v && r.boundBy v) := by
  simp [boundBy]

@[simp] theorem boundBy_call (v : Var) (f : Func) (args : List (Expr α)) :
    (call f args).boundBy v = args.all (boundBy v) := by
  rw [boundBy, occurrences_call, List.all_flatMap]
  rfl

@[simp] theorem boundBy_sin (v : Var) (u : Expr α) : u.sin.boundBy v = u.boundBy v := by
  simp [sin]

@[simp] theorem boundBy_cos (v : Var) (u : Expr α) : u.cos.boundBy v = u.boundBy v := by
  simp [cos]

@[simp] theorem boundBy_pow (v : Var) (base exponent : Expr α) :
    (base.pow exponent).boundBy v = (base.boundBy v && exponent.boundBy v) := by
  simp [pow]

end Expr

end Univariate
