import Univariate.Code.Program
import Univariate.Code.StackNeed
import Univariate.Expr.Leaves

/-!
# The listing of a tree

The code of a tree lists its nodes from left to right, the operands of a node before the node itself, with one instruction for each node. Only the places of the constants depend on more than the tree, namely on the pool.
-/

namespace Univariate

def Func.instr : Func → Instr
  | .sin => .sin
  | .cos => .cos
  | .pow => .pow

namespace Expr

variable {α : Type}

mutual

/-- The nodes of the tree from left to right, the operands of a node before the node. -/
def postorder : Expr α → List (Expr α)
  | .num n => [.num n]
  | .var v => [.var v]
  | .add l r => postorder l ++ postorder r ++ [.add l r]
  | .mul l r => postorder l ++ postorder r ++ [.mul l r]
  | .call f args => argsPostorder args ++ [.call f args]

def argsPostorder : List (Expr α) → List (Expr α)
  | [] => []
  | a :: as => postorder a ++ argsPostorder as

end

theorem argsPostorder_eq_flatMap (args : List (Expr α)) :
    argsPostorder args = args.flatMap postorder := by
  induction args with
  | nil => rfl
  | cons a as ih => rw [argsPostorder, ih, List.flatMap_cons]

def nodeInstr (place : α → Nat) : Expr α → Instr
  | .num n => .loadConst (place n)
  | .var _ => .loadParam
  | .add _ _ => .add
  | .mul _ _ => .mul
  | .call f _ => f.instr

/-- The instructions of the tree from the first to the last, when the constants have the given places. -/
def listing (place : α → Nat) : Expr α → List Instr :=
  fold (fun n => [.loadConst (place n)]) (fun _ => [.loadParam]) (fun l r => l ++ r ++ [.add])
    (fun l r => l ++ r ++ [.mul]) (fun f codes => codes.flatten ++ [f.instr])

@[simp] theorem listing_num (place : α → Nat) (n : α) :
    (num n).listing place = [.loadConst (place n)] := rfl

@[simp] theorem listing_var (place : α → Nat) (v : Var) : (var v).listing place = [.loadParam] := rfl

@[simp] theorem listing_add (place : α → Nat) (l r : Expr α) :
    (add l r).listing place = l.listing place ++ r.listing place ++ [.add] := rfl

@[simp] theorem listing_mul (place : α → Nat) (l r : Expr α) :
    (mul l r).listing place = l.listing place ++ r.listing place ++ [.mul] := rfl

@[simp] theorem listing_call (place : α → Nat) (f : Func) (args : List (Expr α)) :
    (call f args).listing place = args.flatMap (listing place) ++ [f.instr] := by
  rw [listing, fold_call, List.flatMap_def]

@[simp] theorem listing_sin (place : α → Nat) (u : Expr α) :
    u.sin.listing place = u.listing place ++ [.sin] := by
  simp [sin, Func.instr]

@[simp] theorem listing_cos (place : α → Nat) (u : Expr α) :
    u.cos.listing place = u.listing place ++ [.cos] := by
  simp [cos, Func.instr]

@[simp] theorem listing_pow (place : α → Nat) (base exponent : Expr α) :
    (base.pow exponent).listing place = base.listing place ++ exponent.listing place ++ [.pow] := by
  simp [pow, Func.instr]

/-- The listing has one instruction for each node, in the order in which operands come first. -/
theorem listing_eq_map_postorder (place : α → Nat) (e : Expr α) :
    e.listing place = e.postorder.map (nodeInstr place) := by
  induction e with
  | num n => rfl
  | var v => rfl
  | add l r ihl ihr =>
    rw [listing_add, postorder, List.map_append, List.map_append, ihl, ihr]
    rfl
  | mul l r ihl ihr =>
    rw [listing_mul, postorder, List.map_append, List.map_append, ihl, ihr]
    rfl
  | call f args ih =>
    have hargs : args.flatMap (listing place) =
        (args.flatMap postorder).map (nodeInstr place) := by
      rw [List.map_flatMap, List.flatMap_def, List.flatMap_def, List.map_congr_left ih]
    rw [listing_call, postorder, argsPostorder_eq_flatMap, List.map_append, hargs]
    rfl

end Expr

namespace CodeBuilder

variable {α : Type} [DecidableEq α]

def addConstant (pool : Array α) (c : α) : Array α := if c ∈ pool then pool else pool.push c

/-- The pool with the constants of a tree. -/
def addConstants (pool : Array α) (e : Expr α) : Array α := e.numbers.foldl addConstant pool

def placesIn (pool : Array α) (c : α) : Option Nat := if c ∈ pool then some (pool.idxOf c) else none

/-- The builder knows the places of the constants in its pool, and of no others. -/
def Indexed (b : CodeBuilder α) : Prop := b.places = placesIn b.pool

/-- The builder after all of the code of a tree has been appended. -/
def append (b : CodeBuilder α) (e : Expr α) : CodeBuilder α :=
  let pool := addConstants b.pool e
  { b with
    code := b.code ++ e.listing pool.idxOf
    pool
    places := placesIn pool
    height := b.height + 1
    peak := max b.peak (b.height + e.stackNeed) }

end CodeBuilder

/-- The program whose code is the listing of the tree. -/
def Program.ofTree {α : Type} [DecidableEq α] (e : Expr α) (param : Var) : Program α :=
  let pool := CodeBuilder.addConstants #[] e
  { param, code := (e.listing pool.idxOf).toArray, pool, stackSize := e.stackNeed }

end Univariate
