import Univariate.Func
import Univariate.Var

/-!
# Expression trees

Trees of numbers, variables, sums, products and calls, over an open type of scalars. A call holds a list of arguments of any length, because trees may be put together by hand; the checked constructors `Expr.apply` and `Expr.applyNamed` insist on the right number.

The arguments of a call make the type a nested one. `Expr.fold` computes by recursion on it with the results for all arguments at hand, and `Expr.induction` is the matching principle of proof, which `induction` uses by default. What works on calls by their number of arguments is followed by `Expr.arityInduction`.
-/

namespace Univariate

/-- An expression with numbers from `α`. -/
inductive Expr (α : Type) where
  | num (n : α)
  | var (v : Var)
  | add (l r : Expr α)
  | mul (l r : Expr α)
  | call (f : Func) (args : List (Expr α))

/-- A function of one variable: the variable it binds and its body. -/
structure Abstraction (α : Type) where
  param : Var
  body : Expr α

namespace Expr

variable {α β : Type}

instance [Inhabited α] : Inhabited (Expr α) := ⟨.num default⟩

/-! ### Recursion and induction -/

mutual

/-- The value of a tree when each kind of node is given its meaning. -/
def fold (num : α → β) (var : Var → β) (add mul : β → β → β) (call : Func → List β → β) : Expr α → β
  | .num n => num n
  | .var v => var v
  | .add l r => add (fold num var add mul call l) (fold num var add mul call r)
  | .mul l r => mul (fold num var add mul call l) (fold num var add mul call r)
  | .call f args => call f (foldArgs num var add mul call args)

def foldArgs (num : α → β) (var : Var → β) (add mul : β → β → β) (call : Func → List β → β) :
    List (Expr α) → List β
  | [] => []
  | a :: as => fold num var add mul call a :: foldArgs num var add mul call as

end

theorem foldArgs_eq_map (num : α → β) (var : Var → β) (add mul : β → β → β) (call : Func → List β → β)
    (args : List (Expr α)) :
    foldArgs num var add mul call args = args.map (fold num var add mul call) := by
  induction args with
  | nil => rfl
  | cons a as ih => rw [foldArgs, ih, List.map_cons]

theorem fold_call (num : α → β) (var : Var → β) (add mul : β → β → β) (call : Func → List β → β)
    (f : Func) (args : List (Expr α)) :
    fold num var add mul call (.call f args) = call f (args.map (fold num var add mul call)) := by
  rw [fold, foldArgs_eq_map]

/-- What holds of a tree whenever it holds of all parts of the tree holds of every tree. -/
@[elab_as_elim, induction_eliminator]
theorem induction {motive : Expr α → Prop} (num : ∀ n, motive (.num n)) (var : ∀ v, motive (.var v))
    (add : ∀ l r, motive l → motive r → motive (.add l r))
    (mul : ∀ l r, motive l → motive r → motive (.mul l r))
    (call : ∀ f args, (∀ a ∈ args, motive a) → motive (.call f args)) : ∀ e, motive e
  | .num n => num n
  | .var v => var v
  | .add l r => add l r (induction num var add mul call l) (induction num var add mul call r)
  | .mul l r => mul l r (induction num var add mul call l) (induction num var add mul call r)
  | .call f args => call f args fun a _ => induction num var add mul call a

/-! ### Building trees -/

instance : Coe Var (Expr α) := ⟨.var⟩
instance : Add (Expr α) := ⟨.add⟩
instance : Mul (Expr α) := ⟨.mul⟩
instance [IntCast α] : IntCast (Expr α) := ⟨fun n => .num n⟩

def sin (e : Expr α) : Expr α := .call .sin [e]

def cos (e : Expr α) : Expr α := .call .cos [e]

def pow (base exponent : Expr α) : Expr α := .call .pow [base, exponent]

/-- A call with as many arguments as the function takes. -/
def apply (f : Func) (args : List (Expr α)) : Except Error (Expr α) :=
  if args.length = f.arity then .ok (.call f args) else .error (f.arityMismatch args.length)

/-- A call of the function with this name. The name is looked up before the arguments are counted. -/
def applyNamed (name : String) (args : List (Expr α)) : Except Error (Expr α) := do
  apply (← Func.ofName name) args

/-- What holds of a tree whenever it holds of the operands that evaluation looks at holds of every tree. Evaluation looks at no argument of a call with a wrong number of them. -/
@[elab_as_elim]
theorem arityInduction {motive : Expr α → Prop} (num : ∀ n, motive (.num n)) (var : ∀ v, motive (.var v))
    (add : ∀ l r, motive l → motive r → motive (.add l r))
    (mul : ∀ l r, motive l → motive r → motive (.mul l r))
    (sin : ∀ u, motive u → motive u.sin) (cos : ∀ u, motive u → motive u.cos)
    (pow : ∀ base exponent, motive base → motive exponent → motive (base.pow exponent))
    (misfit : ∀ f args, args.length ≠ f.arity → motive (.call f args)) (e : Expr α) : motive e := by
  induction e with
  | num n => exact num n
  | var v => exact var v
  | add l r ihl ihr => exact add l r ihl ihr
  | mul l r ihl ihr => exact mul l r ihl ihr
  | call f args ih =>
    by_cases h : args.length = f.arity
    · cases f with
      | sin =>
        obtain ⟨u, rfl⟩ := List.length_eq_one_iff.mp h
        exact sin u (ih u (List.mem_singleton_self u))
      | cos =>
        obtain ⟨u, rfl⟩ := List.length_eq_one_iff.mp h
        exact cos u (ih u (List.mem_singleton_self u))
      | pow =>
        match args, h with
        | [base, exponent], _ => exact pow base exponent (ih base (by simp)) (ih exponent (by simp))
    · exact misfit f args h

/-! ### Looking at trees -/

def asNum? : Expr α → Option α
  | .num n => some n
  | _ => none

def asVar? : Expr α → Option Var
  | .var v => some v
  | _ => none

theorem asVar?_eq_some_iff {e : Expr α} {v : Var} : e.asVar? = some v ↔ e = .var v := by
  cases e <;> simp [asVar?]

def nodeCount : Expr α → Nat :=
  fold (fun _ => 1) (fun _ => 1) (fun l r => 1 + l + r) (fun l r => 1 + l + r)
    (fun _ ns => 1 + ns.foldr (· + ·) 0)

/-- The number of nodes on a longest way from the root to a leaf. A call without arguments is a leaf. -/
def maxDepth : Expr α → Nat :=
  fold (fun _ => 1) (fun _ => 1) (fun l r => 1 + max l r) (fun l r => 1 + max l r)
    (fun _ ds => 1 + ds.foldr max 0)

@[simp] theorem nodeCount_num (n : α) : (num n).nodeCount = 1 := rfl

@[simp] theorem nodeCount_var (v : Var) : (var v : Expr α).nodeCount = 1 := rfl

@[simp] theorem nodeCount_add (l r : Expr α) : (add l r).nodeCount = 1 + l.nodeCount + r.nodeCount := rfl

@[simp] theorem nodeCount_mul (l r : Expr α) : (mul l r).nodeCount = 1 + l.nodeCount + r.nodeCount := rfl

@[simp] theorem nodeCount_call (f : Func) (args : List (Expr α)) :
    (call f args).nodeCount = 1 + (args.map nodeCount).foldr (· + ·) 0 := by
  rw [nodeCount, fold_call]

@[simp] theorem maxDepth_num (n : α) : (num n).maxDepth = 1 := rfl

@[simp] theorem maxDepth_var (v : Var) : (var v : Expr α).maxDepth = 1 := rfl

@[simp] theorem maxDepth_add (l r : Expr α) : (add l r).maxDepth = 1 + max l.maxDepth r.maxDepth := rfl

@[simp] theorem maxDepth_mul (l r : Expr α) : (mul l r).maxDepth = 1 + max l.maxDepth r.maxDepth := rfl

@[simp] theorem maxDepth_call (f : Func) (args : List (Expr α)) :
    (call f args).maxDepth = 1 + (args.map maxDepth).foldr max 0 := by
  rw [maxDepth, fold_call]

@[simp] theorem maxDepth_sin (u : Expr α) : u.sin.maxDepth = 1 + u.maxDepth := by
  simp [sin]

@[simp] theorem maxDepth_cos (u : Expr α) : u.cos.maxDepth = 1 + u.maxDepth := by
  simp [cos]

@[simp] theorem maxDepth_pow (base exponent : Expr α) :
    (base.pow exponent).maxDepth = 1 + max base.maxDepth exponent.maxDepth := by
  simp [pow]

theorem maxDepth_pos (e : Expr α) : 0 < e.maxDepth := by
  cases e with
  | num n => exact Nat.one_pos
  | var w => exact Nat.one_pos
  | add l r =>
    rw [maxDepth_add]
    omega
  | mul l r =>
    rw [maxDepth_mul]
    omega
  | call f args =>
    rw [maxDepth_call]
    omega

end Expr

end Univariate
