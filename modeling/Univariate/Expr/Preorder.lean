import Univariate.Expr.Basic

/-!
# Walks over a tree

A walk visits every node of a tree once, a node before its operands and the operands from left to right. It carries a state down the tree, from which each node gets its own by the way it hangs below its parent. What is wrong with a tree is usually wrong with one of its nodes at the place where it stands, and the error for the tree is then the defect that a walk meets first.
-/

namespace Univariate

namespace Expr

variable {α σ : Type}

mutual

/-- The nodes of the tree with their states. An operand gets its state from that of its parent, the parent and its own position among the operands. -/
def preorder (down : σ → Expr α → Nat → σ) (s : σ) : Expr α → List (σ × Expr α)
  | .num n => [(s, .num n)]
  | .var v => [(s, .var v)]
  | .add l r =>
    (s, .add l r) ::
      (preorder down (down s (.add l r) 0) l ++ preorder down (down s (.add l r) 1) r)
  | .mul l r =>
    (s, .mul l r) ::
      (preorder down (down s (.mul l r) 0) l ++ preorder down (down s (.mul l r) 1) r)
  | .call f args => (s, .call f args) :: argsPreorder down (down s (.call f args)) args

def argsPreorder (down : σ → Expr α → Nat → σ) (states : Nat → σ) : List (Expr α) → List (σ × Expr α)
  | [] => []
  | a :: as => preorder down (states 0) a ++ argsPreorder down (fun i => states (i + 1)) as

end

/-- The first defect that a walk meets. -/
def firstDefect (down : σ → Expr α → Nat → σ) (defect : σ → Expr α → Option Error) (s : σ) (e : Expr α) :
    Option Error :=
  (e.preorder down s).findSome? fun visit => defect visit.1 visit.2

theorem exists_defect_of_firstDefect {down : σ → Expr α → Nat → σ} {defect : σ → Expr α → Option Error}
    {s : σ} {e : Expr α} {error : Error} (h : e.firstDefect down defect s = some error) :
    ∃ visit ∈ e.preorder down s, defect visit.1 visit.2 = some error :=
  List.exists_of_findSome?_eq_some h

section FirstDefect

variable (down : σ → Expr α → Nat → σ) (defect : σ → Expr α → Option Error) (s : σ)

theorem firstDefect_num (n : α) : (num n).firstDefect down defect s = defect s (.num n) := by
  simp [firstDefect, preorder]

theorem firstDefect_var (v : Var) : (var v).firstDefect down defect s = defect s (.var v) := by
  simp [firstDefect, preorder]

theorem firstDefect_add (l r : Expr α) :
    (add l r).firstDefect down defect s =
      (defect s (.add l r)).or
        ((l.firstDefect down defect (down s (.add l r) 0)).or
          (r.firstDefect down defect (down s (.add l r) 1))) := by
  simp only [firstDefect, preorder, List.findSome?_cons, List.findSome?_append]
  cases defect s (.add l r) <;> rfl

theorem firstDefect_mul (l r : Expr α) :
    (mul l r).firstDefect down defect s =
      (defect s (.mul l r)).or
        ((l.firstDefect down defect (down s (.mul l r) 0)).or
          (r.firstDefect down defect (down s (.mul l r) 1))) := by
  simp only [firstDefect, preorder, List.findSome?_cons, List.findSome?_append]
  cases defect s (.mul l r) <;> rfl

/-- A call that is itself a defect is met before anything in its arguments. -/
theorem firstDefect_call_of_defect {f : Func} {args : List (Expr α)} {error : Error}
    (h : defect s (.call f args) = some error) :
    (call f args).firstDefect down defect s = some error := by
  simp only [firstDefect, preorder, List.findSome?_cons, h]

theorem firstDefect_call_one (f : Func) (u : Expr α) :
    (call f [u]).firstDefect down defect s =
      (defect s (.call f [u])).or (u.firstDefect down defect (down s (.call f [u]) 0)) := by
  simp only [firstDefect, preorder, argsPreorder, List.findSome?_cons, List.append_nil]
  cases defect s (.call f [u]) <;> rfl

theorem firstDefect_call_two (f : Func) (a b : Expr α) :
    (call f [a, b]).firstDefect down defect s =
      (defect s (.call f [a, b])).or
        ((a.firstDefect down defect (down s (.call f [a, b]) 0)).or
          (b.firstDefect down defect (down s (.call f [a, b]) 1))) := by
  simp only [firstDefect, preorder, argsPreorder, List.findSome?_cons, List.findSome?_append,
    List.append_nil]
  cases defect s (.call f [a, b]) <;> rfl

end FirstDefect

end Expr

end Univariate
