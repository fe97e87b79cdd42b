import Univariate.Code.Builder
import Univariate.Expr.Preorder

/-!
# Why a tree does not compile

While code is built the height of the stack is followed along a walk over the tree: the operands of a node find the values of those before them on the stack. A variable that is not bound, a call with a wrong number of arguments and a value for which there is no room are the faults of single nodes, and the first of them on the walk is the error.
-/

namespace Univariate

namespace Expr

variable {α : Type}

/-- The fault of putting one more value onto a stack of the given height. -/
def overflow? (height : Nat) : Option Error :=
  if height < CodeBuilder.stackLimit then none
  else some (.stackOverflow (height + 1) CodeBuilder.stackLimit)

theorem overflow?_eq_none_iff {height : Nat} :
    overflow? height = none ↔ height < CodeBuilder.stackLimit := by
  simp [overflow?]

theorem overflow?_eq_some_iff {height : Nat} {error : Error} :
    overflow? height = some error ↔
      ¬ height < CodeBuilder.stackLimit ∧
        error = .stackOverflow (height + 1) CodeBuilder.stackLimit := by
  rw [overflow?]
  split <;> simp [*, eq_comm]

def nodeFault? (param : Var) (height : Nat) : Expr α → Option Error
  | .num _ => overflow? height
  | .var w => if w == param then overflow? height else some (.unboundVariable w.name)
  | .call f args => if args.length = f.arity then none else some (f.wrongArgumentCount args.length)
  | _ => none

/-- The first fault of a tree whose code starts with a stack of the given height. -/
def fault? (param : Var) (height : Nat) (e : Expr α) : Option Error :=
  e.firstDefect (fun height _ position => height + position) (nodeFault? param) height

variable (param : Var) (height : Nat)

theorem fault?_num (n : α) : (num n).fault? param height = overflow? height := by
  rw [fault?, firstDefect_num]
  rfl

theorem fault?_var (w : Var) :
    (var w : Expr α).fault? param height =
      if w == param then overflow? height else some (.unboundVariable w.name) := by
  rw [fault?, firstDefect_var]
  rfl

theorem fault?_add (l r : Expr α) :
    (add l r).fault? param height = (l.fault? param height).or (r.fault? param (height + 1)) := by
  rw [fault?, firstDefect_add]
  rfl

theorem fault?_mul (l r : Expr α) :
    (mul l r).fault? param height = (l.fault? param height).or (r.fault? param (height + 1)) := by
  rw [fault?, firstDefect_mul]
  rfl

theorem fault?_sin (u : Expr α) : u.sin.fault? param height = u.fault? param height := by
  rw [fault?, sin, firstDefect_call_one]
  rfl

theorem fault?_cos (u : Expr α) : u.cos.fault? param height = u.fault? param height := by
  rw [fault?, cos, firstDefect_call_one]
  rfl

theorem fault?_pow (base exponent : Expr α) :
    (base.pow exponent).fault? param height =
      (base.fault? param height).or (exponent.fault? param (height + 1)) := by
  rw [fault?, pow, firstDefect_call_two]
  rfl

theorem fault?_misfit {f : Func} {args : List (Expr α)} (h : args.length ≠ f.arity) :
    (call f args).fault? param height = some (f.wrongArgumentCount args.length) := by
  rw [fault?]
  apply firstDefect_call_of_defect
  rw [nodeFault?, if_neg h]

end Expr

end Univariate
