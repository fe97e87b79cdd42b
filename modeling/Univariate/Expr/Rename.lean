import Univariate.Expr.Basic

/-!
# Renaming variables

A tree with its variables replaced by others, for instance by variables with other identities or by the same ones under other names. The replacements of interest keep different variables apart. They may do to the names what they like.
-/

namespace Univariate

/-- A replacement of variables that takes different ones to different ones. Names have no part in it: it may give the same name to several variables. -/
structure Renaming where
  replace : Var → Var
  beq_replace : ∀ v w, (replace v == replace w) = (v == w)

instance : CoeFun Renaming fun _ => Var → Var := ⟨Renaming.replace⟩

def Renaming.allNamed (name : String) : Renaming := ⟨fun v => ⟨v.id, name⟩, fun _ _ => rfl⟩

namespace Expr

variable {α : Type}

def rename (ρ : Var → Var) : Expr α → Expr α :=
  fold .num (fun v => .var (ρ v)) .add .mul .call

@[simp] theorem rename_num (ρ : Var → Var) (n : α) : (num n).rename ρ = num n := rfl

@[simp] theorem rename_var (ρ : Var → Var) (v : Var) : (var v : Expr α).rename ρ = var (ρ v) := rfl

@[simp] theorem rename_add (ρ : Var → Var) (l r : Expr α) :
    (add l r).rename ρ = add (l.rename ρ) (r.rename ρ) := rfl

@[simp] theorem rename_mul (ρ : Var → Var) (l r : Expr α) :
    (mul l r).rename ρ = mul (l.rename ρ) (r.rename ρ) := rfl

@[simp] theorem rename_call (ρ : Var → Var) (f : Func) (args : List (Expr α)) :
    (call f args).rename ρ = call f (args.map (rename ρ)) := by
  rw [rename, fold_call]

@[simp] theorem rename_sin (ρ : Var → Var) (u : Expr α) : u.sin.rename ρ = (u.rename ρ).sin := rfl

@[simp] theorem rename_cos (ρ : Var → Var) (u : Expr α) : u.cos.rename ρ = (u.rename ρ).cos := rfl

@[simp] theorem rename_pow (ρ : Var → Var) (base exponent : Expr α) :
    (base.pow exponent).rename ρ = (base.rename ρ).pow (exponent.rename ρ) := rfl

/-! ### What is not renamed -/

@[simp] theorem asVar?_rename (ρ : Var → Var) (e : Expr α) :
    (e.rename ρ).asVar? = e.asVar?.map ρ := by
  cases e with
  | call f args =>
    rw [rename_call]
    rfl
  | _ => rfl

@[simp] theorem nodeCount_rename (ρ : Var → Var) (e : Expr α) :
    (e.rename ρ).nodeCount = e.nodeCount := by
  induction e with
  | num n => rfl
  | var v => rfl
  | add l r ihl ihr => rw [rename_add, nodeCount_add, nodeCount_add, ihl, ihr]
  | mul l r ihl ihr => rw [rename_mul, nodeCount_mul, nodeCount_mul, ihl, ihr]
  | call f args ih =>
    have hargs : args.map (nodeCount ∘ rename ρ) = args.map nodeCount := List.map_congr_left ih
    rw [rename_call, nodeCount_call, nodeCount_call, List.map_map, hargs]

@[simp] theorem maxDepth_rename (ρ : Var → Var) (e : Expr α) :
    (e.rename ρ).maxDepth = e.maxDepth := by
  induction e with
  | num n => rfl
  | var v => rfl
  | add l r ihl ihr => rw [rename_add, maxDepth_add, maxDepth_add, ihl, ihr]
  | mul l r ihl ihr => rw [rename_mul, maxDepth_mul, maxDepth_mul, ihl, ihr]
  | call f args ih =>
    have hargs : args.map (maxDepth ∘ rename ρ) = args.map maxDepth := List.map_congr_left ih
    rw [rename_call, maxDepth_call, maxDepth_call, List.map_map, hargs]

end Expr

end Univariate
