import Mathlib.Algebra.Polynomial.Degree.Lemmas
import Univariate.Expr.Scope

/-!
# The polynomial of a tree

A tree of numbers, one variable, sums and products is a way to write a polynomial, and many trees write the same one. What the tree computes at a point is the value of its polynomial there.
-/

namespace Univariate

namespace Expr

open Polynomial

section Calls

variable {α : Type}

def isCallFree : Expr α → Bool :=
  fold (fun _ => true) (fun _ => true) (· && ·) (· && ·) (fun _ _ => false)

@[simp] theorem isCallFree_num (n : α) : (num n).isCallFree = true := rfl

@[simp] theorem isCallFree_var (v : Var) : (var v : Expr α).isCallFree = true := rfl

@[simp] theorem isCallFree_add (l r : Expr α) :
    (add l r).isCallFree = (l.isCallFree && r.isCallFree) := rfl

@[simp] theorem isCallFree_mul (l r : Expr α) :
    (mul l r).isCallFree = (l.isCallFree && r.isCallFree) := rfl

@[simp] theorem isCallFree_call (f : Func) (args : List (Expr α)) :
    (call f args).isCallFree = false := rfl

end Calls

variable {R : Type} [CommRing R]

/-- The polynomial that a tree without calls denotes when all its variables are the same. -/
noncomputable def polynomial : Expr R → R[X] :=
  fold C (fun _ => X) (· + ·) (· * ·) (fun _ _ => 0)

@[simp] theorem polynomial_num (n : R) : (num n).polynomial = C n := rfl

@[simp] theorem polynomial_var (v : Var) : (var v : Expr R).polynomial = X := rfl

@[simp] theorem polynomial_add (l r : Expr R) :
    (add l r).polynomial = l.polynomial + r.polynomial := rfl

@[simp] theorem polynomial_mul (l r : Expr R) :
    (mul l r).polynomial = l.polynomial * r.polynomial := rfl

end Expr

end Univariate
