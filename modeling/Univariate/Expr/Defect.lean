import Univariate.Expr.Preorder

/-!
# What is wrong with a tree

A tree has no value when it refers to a variable that is not bound, or calls a function with a wrong number of arguments. Both are defects of single nodes wherever they stand, and a walk over the tree says which of them counts: the one that it meets first. Neither the point nor the scalars have a part in it.
-/

namespace Univariate

namespace Expr

variable {α : Type}

def nodeDefect? (v : Var) : Expr α → Option Error
  | .var w => if w == v then none else some (.unboundVariable w.name)
  | .call f args => if args.length = f.arity then none else some (f.wrongArgumentCount args.length)
  | _ => none

/-- The first defect of a tree when `v` is bound. -/
def defect? (v : Var) (e : Expr α) : Option Error :=
  e.firstDefect (fun place _ _ => place) (fun _ => nodeDefect? v) ()

theorem nodeDefect?_ne_stackOverflow {v : Var} {node : Expr α} {error : Error}
    (h : nodeDefect? v node = some error) (depth limit : Nat) :
    error ≠ .stackOverflow depth limit := by
  rintro rfl
  cases node with
  | num n => cases h
  | add l r => cases h
  | mul l r => cases h
  | var w =>
    rw [nodeDefect?] at h
    split at h <;> cases h
  | call f args =>
    rw [nodeDefect?] at h
    split at h <;> cases h

theorem defect?_ne_stackOverflow {v : Var} {e : Expr α} {error : Error} (h : e.defect? v = some error)
    (depth limit : Nat) : error ≠ .stackOverflow depth limit := by
  obtain ⟨_, _, hnode⟩ := exists_defect_of_firstDefect h
  exact nodeDefect?_ne_stackOverflow hnode depth limit

variable (v : Var)

theorem defect?_num (n : α) : (num n).defect? v = none := by
  rw [defect?, firstDefect_num]
  rfl

theorem defect?_var (w : Var) :
    (var w : Expr α).defect? v = if w == v then none else some (.unboundVariable w.name) := by
  rw [defect?, firstDefect_var]
  rfl

theorem defect?_add (l r : Expr α) : (add l r).defect? v = (l.defect? v).or (r.defect? v) := by
  rw [defect?, firstDefect_add]
  rfl

theorem defect?_mul (l r : Expr α) : (mul l r).defect? v = (l.defect? v).or (r.defect? v) := by
  rw [defect?, firstDefect_mul]
  rfl

theorem defect?_sin (u : Expr α) : u.sin.defect? v = u.defect? v := by
  rw [defect?, sin, firstDefect_call_one]
  rfl

theorem defect?_cos (u : Expr α) : u.cos.defect? v = u.defect? v := by
  rw [defect?, cos, firstDefect_call_one]
  rfl

theorem defect?_pow (base exponent : Expr α) :
    (base.pow exponent).defect? v = (base.defect? v).or (exponent.defect? v) := by
  rw [defect?, pow, firstDefect_call_two]
  rfl

theorem defect?_misfit {f : Func} {args : List (Expr α)} (h : args.length ≠ f.arity) :
    (call f args).defect? v = some (f.wrongArgumentCount args.length) := by
  rw [defect?]
  apply firstDefect_call_of_defect
  rw [nodeDefect?, if_neg h]

end Expr

end Univariate
