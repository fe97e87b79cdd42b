import Univariate.Proofs.Code.Faults
import Univariate.Proofs.Expr.Renaming

/-!
# Code under renaming

The code of a tree holds no variable: it reads the input wherever the bound variable stands. So a renamed tree compiles to the same code for the renamed variable, with the same constants and the same stack.
-/

namespace Univariate

namespace Expr

variable {α : Type}

theorem numbers_rename (ρ : Var → Var) (e : Expr α) : (e.rename ρ).numbers = e.numbers := by
  induction e with
  | num n => rfl
  | var v => rfl
  | add l r ihl ihr => rw [rename_add, numbers_add, numbers_add, ihl, ihr]
  | mul l r ihl ihr => rw [rename_mul, numbers_mul, numbers_mul, ihl, ihr]
  | call f args ih =>
    have hargs : args.map (numbers ∘ rename ρ) = args.map numbers := List.map_congr_left ih
    rw [rename_call, numbers_call, numbers_call, List.flatMap_def, List.flatMap_def, List.map_map,
      hargs]

theorem listing_rename (ρ : Var → Var) (place : α → Nat) (e : Expr α) :
    (e.rename ρ).listing place = e.listing place := by
  induction e with
  | num n => rfl
  | var v => rfl
  | add l r ihl ihr => rw [rename_add, listing_add, listing_add, ihl, ihr]
  | mul l r ihl ihr => rw [rename_mul, listing_mul, listing_mul, ihl, ihr]
  | call f args ih =>
    have hargs : args.map (listing place ∘ rename ρ) = args.map (listing place) :=
      List.map_congr_left ih
    rw [rename_call, listing_call, listing_call, List.flatMap_def, List.flatMap_def, List.map_map,
      hargs]

theorem stackNeed_rename (ρ : Var → Var) (e : Expr α) : (e.rename ρ).stackNeed = e.stackNeed := by
  induction e with
  | num n => rfl
  | var v => rfl
  | add l r ihl ihr => rw [rename_add, stackNeed_add, stackNeed_add, ihl, ihr]
  | mul l r ihl ihr => rw [rename_mul, stackNeed_mul, stackNeed_mul, ihl, ihr]
  | call f args ih =>
    have hargs : args.map (stackNeed ∘ rename ρ) = args.map stackNeed := List.map_congr_left ih
    rw [rename_call, stackNeed_call, stackNeed_call, List.map_map, hargs]

theorem rel_nodeFault? [Literal α] (ρ : Renaming) (param : Var) (height : Nat) (node : Expr α) :
    Option.Rel (Error.Renamed α ρ fun _ => True) (nodeFault? param height node)
      (nodeFault? (ρ param) height (node.rename ρ)) := by
  have hoverflow : Option.Rel (Error.Renamed α ρ fun _ => True) (overflow? height) (overflow? height) := by
    rw [overflow?]
    split
    · exact .none
    · exact .some (.same fun name h => by cases h)
  cases node with
  | num n => exact hoverflow
  | add l r => exact .none
  | mul l r => exact .none
  | var w =>
    rw [rename_var, nodeFault?, nodeFault?, ρ.beq_replace]
    split
    · exact hoverflow
    · exact .some (.unboundVariable trivial)
  | call f args =>
    rw [rename_call, nodeFault?, nodeFault?, List.length_map]
    split
    · exact .none
    · exact .some (.same fun name h => by cases h)

end Expr

namespace Program

variable {α : Type}

/-- The program of a renamed tree, next to the program of the tree: it differs in nothing but the variable that the input stands for. -/
structure Renamed [Add α] [Mul α] [Elementary α] [Measured α] (ρ : Renaming) (p p' : Program α) : Prop where
  param : p'.param = ρ p.param
  code : p'.code = p.code
  pool : p'.pool = p.pool
  stackSize : p'.stackSize = p.stackSize
  evaluate : ∀ x, p'.evaluate x = p.evaluate x

variable [DecidableEq α] [Add α] [Mul α] [Elementary α] [Measured α]

theorem renamed_ofTree (ρ : Renaming) (e : Expr α) (param : Var) :
    Renamed ρ (ofTree e param) (ofTree (e.rename ρ) (ρ param)) := by
  have h : ofTree (e.rename ρ) (ρ param) = { ofTree e param with param := ρ param } := by
    simp only [ofTree, CodeBuilder.addConstants, Expr.numbers_rename, Expr.listing_rename,
      Expr.stackNeed_rename]
  rw [h]
  exact ⟨rfl, rfl, rfl, rfl, fun _ => rfl⟩

variable [Literal α]

/-- Compilation does not see how variables are named and identified, as long as they are kept apart. -/
theorem corresponds_compile (ρ : Renaming) (e : Expr α) (param : Var) :
    Error.Corresponds (Error.Renamed α ρ fun w => e.stranger? param = some w) (Renamed ρ)
      (compile e param) (compile (e.rename ρ) (ρ param)) := by
  have hfault : Option.Rel (Error.Renamed α ρ fun _ => True) (e.fault? param 0)
      ((e.rename ρ).fault? (ρ param) 0) :=
    Expr.rel_firstDefect (fun _ _ _ => rfl) (Expr.rel_nodeFault? ρ param) 0 e
  rw [compile_eq, compile_eq]
  rcases Expr.rel_iff.mp hfault with ⟨hnone, hnone'⟩ | ⟨error, error', herror, herror', hrenamed⟩
  · rw [hnone, hnone']
    exact .ok (renamed_ofTree ρ e param)
  · rw [herror, herror']
    -- A fault that is no overflow is the first defect.
    refine .error (Expr.renamed_stranger hrenamed ?_ ?_)
    · rintro name rfl
      rcases Expr.fault?_eq_some herror (Nat.zero_le _) with hover | hdefect
      · cases hover
      · exact hdefect
    · rintro name rfl
      rcases Expr.fault?_eq_some herror' (Nat.zero_le _) with hover | hdefect
      · cases hover
      · exact hdefect

end Program

end Univariate
