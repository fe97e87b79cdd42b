import Univariate.Expr.Basic

/-!
# The leaves of a tree

The numbers and variables of a tree in the order in which they are read from left to right. What a tree refers to, and which constants it holds, is a matter of its leaves alone.
-/

namespace Univariate

inductive Leaf (α : Type) where
  | num (n : α)
  | var (v : Var)

namespace Leaf

variable {α : Type}

def num? : Leaf α → Option α
  | .num n => some n
  | .var _ => none

def var? : Leaf α → Option Var
  | .num _ => none
  | .var v => some v

end Leaf

namespace Expr

variable {α : Type}

/-- The leaves of the tree from left to right. -/
def leaves : Expr α → List (Leaf α) :=
  fold (fun n => [.num n]) (fun v => [.var v]) (· ++ ·) (· ++ ·) (fun _ ls => ls.flatten)

/-- The numbers of the tree from left to right, each as often as it occurs. -/
def numbers (e : Expr α) : List α := e.leaves.filterMap Leaf.num?

/-- The variables of the tree from left to right, each as often as it occurs. -/
def occurrences (e : Expr α) : List Var := e.leaves.filterMap Leaf.var?

@[simp] theorem leaves_num (n : α) : (num n).leaves = [.num n] := rfl

@[simp] theorem leaves_var (v : Var) : (var v : Expr α).leaves = [.var v] := rfl

@[simp] theorem leaves_add (l r : Expr α) : (add l r).leaves = l.leaves ++ r.leaves := rfl

@[simp] theorem leaves_mul (l r : Expr α) : (mul l r).leaves = l.leaves ++ r.leaves := rfl

@[simp] theorem leaves_call (f : Func) (args : List (Expr α)) :
    (call f args).leaves = args.flatMap leaves := by
  rw [leaves, fold_call, List.flatMap_def]

@[simp] theorem numbers_num (n : α) : (num n).numbers = [n] := rfl

@[simp] theorem numbers_var (v : Var) : (var v : Expr α).numbers = [] := rfl

@[simp] theorem numbers_add (l r : Expr α) : (add l r).numbers = l.numbers ++ r.numbers :=
  List.filterMap_append

@[simp] theorem numbers_mul (l r : Expr α) : (mul l r).numbers = l.numbers ++ r.numbers :=
  List.filterMap_append

@[simp] theorem numbers_call (f : Func) (args : List (Expr α)) :
    (call f args).numbers = args.flatMap numbers := by
  rw [numbers, leaves_call, List.filterMap_flatMap]
  rfl

@[simp] theorem occurrences_num (n : α) : (num n).occurrences = [] := rfl

@[simp] theorem occurrences_var (v : Var) : (var v : Expr α).occurrences = [v] := rfl

@[simp] theorem occurrences_add (l r : Expr α) :
    (add l r).occurrences = l.occurrences ++ r.occurrences :=
  List.filterMap_append

@[simp] theorem occurrences_mul (l r : Expr α) :
    (mul l r).occurrences = l.occurrences ++ r.occurrences :=
  List.filterMap_append

@[simp] theorem occurrences_call (f : Func) (args : List (Expr α)) :
    (call f args).occurrences = args.flatMap occurrences := by
  rw [occurrences, leaves_call, List.filterMap_flatMap]
  rfl

end Expr

end Univariate
