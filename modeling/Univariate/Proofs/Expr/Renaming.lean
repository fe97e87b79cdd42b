import Univariate.Expr.Rename
import Univariate.Proofs.Expr.Values
import Univariate.Proofs.Expr.Variables
import Univariate.Expr.Text

/-!
# Evaluation under renaming

Whether a node is a defect depends on identities alone. So a walk over a renamed tree meets a defect where a walk over the tree does, and evaluation of the one goes as evaluation of the other. Names show in the errors only: a variable that is not bound is named, by its own name or by that of its replacement. Which variable that is does not depend on the error, since it is always the first one in the tree that is not bound.
-/

namespace Univariate

namespace Error

/-- The error for a tree and the error for the renamed tree. The causes are the same. The variable in an error, which is known to be one of those with `named`, goes by the name of its replacement, and a factor is shown with its variables renamed. -/
inductive Renamed (α : Type) [Literal α] (ρ : Renaming) (named : Var → Prop) : Error → Error → Prop where
  | unboundVariable {w : Var} :
    named w → Renamed α ρ named (.unboundVariable w.name) (.unboundVariable (ρ w).name)
  | misplaced (node : Expr α) :
    Renamed α ρ named (.invalidShape ("'" ++ node.text ++ "' inside a product term"))
      (.invalidShape ("'" ++ (node.rename ρ).text ++ "' inside a product term"))
  | same {error : Error} : (∀ name, error ≠ .unboundVariable name) → Renamed α ρ named error error

/-- Two outcomes that are related results or related errors. -/
inductive Corresponds {β γ : Type} (E : Error → Error → Prop) (R : β → γ → Prop) :
    Except Error β → Except Error γ → Prop where
  | ok {b : β} {c : γ} : R b c → Corresponds E R (.ok b) (.ok c)
  | error {error error' : Error} : E error error' → Corresponds E R (.error error) (.error error')

end Error

namespace Expr

variable {α σ : Type}

/-! ### Walks -/

theorem argsPreorder_map {f : Expr α → Expr α} {down : σ → Expr α → Nat → σ} {args : List (Expr α)}
    (h : ∀ a ∈ args, ∀ s, (f a).preorder down s = (a.preorder down s).map (Prod.map id f))
    (states : Nat → σ) :
    argsPreorder down states (args.map f) = (argsPreorder down states args).map (Prod.map id f) := by
  induction args generalizing states with
  | nil => rfl
  | cons a as ih =>
    rw [List.map_cons, argsPreorder, argsPreorder, h a List.mem_cons_self, List.map_append,
      ih fun b hb => h b (List.mem_cons_of_mem a hb)]

/-- A walk whose state does not depend on the variables visits the renamed nodes. -/
theorem preorder_rename {ρ : Var → Var} {down : σ → Expr α → Nat → σ}
    (hdown : ∀ s node i, down s (node.rename ρ) i = down s node i) (s : σ) (e : Expr α) :
    (e.rename ρ).preorder down s = (e.preorder down s).map (Prod.map id (rename ρ)) := by
  induction e generalizing s with
  | num n => rfl
  | var v => rfl
  | add l r ihl ihr =>
    have h := hdown s (.add l r)
    rw [rename_add] at h
    rw [rename_add, preorder, preorder, h, h, ihl, ihr, List.map_cons, List.map_append]
    rfl
  | mul l r ihl ihr =>
    have h := hdown s (.mul l r)
    rw [rename_mul] at h
    rw [rename_mul, preorder, preorder, h, h, ihl, ihr, List.map_cons, List.map_append]
    rfl
  | call f args ih =>
    have h := funext (hdown s (.call f args))
    rw [rename_call] at h
    rw [rename_call, preorder, preorder, h, argsPreorder_map ih, List.map_cons, Prod.map_apply, id_eq,
      rename_call]

theorem rel_iff {β γ : Type} {E : β → γ → Prop} {first : Option β} {second : Option γ} :
    Option.Rel E first second ↔
      (first = none ∧ second = none) ∨ ∃ b c, first = some b ∧ second = some c ∧ E b c := by
  constructor
  · rintro (hbc | _)
    · exact .inr ⟨_, _, rfl, rfl, hbc⟩
    · exact .inl ⟨rfl, rfl⟩
  · rintro (⟨rfl, rfl⟩ | ⟨b, c, rfl, rfl, hbc⟩)
    · exact .none
    · exact .some hbc

theorem rel_findSome? {β γ δ : Type} {E : γ → δ → Prop} {f : β → Option γ} {g : β → Option δ}
    (h : ∀ b, Option.Rel E (f b) (g b)) (bs : List β) :
    Option.Rel E (bs.findSome? f) (bs.findSome? g) := by
  induction bs with
  | nil => exact .none
  | cons b bs ih =>
    rw [List.findSome?_cons, List.findSome?_cons]
    rcases rel_iff.mp (h b) with ⟨hf, hg⟩ | ⟨c, d, hf, hg, hcd⟩
    · rw [hf, hg]
      exact ih
    · rw [hf, hg]
      exact .some hcd

/-- The first defects of a tree and of the renamed tree are related when those of each node are. -/
theorem rel_firstDefect {ρ : Var → Var} {down : σ → Expr α → Nat → σ}
    {defect defect' : σ → Expr α → Option Error} {E : Error → Error → Prop}
    (hdown : ∀ s node i, down s (node.rename ρ) i = down s node i)
    (hdefect : ∀ s node, Option.Rel E (defect s node) (defect' s (node.rename ρ))) (s : σ)
    (e : Expr α) :
    Option.Rel E (e.firstDefect down defect s) ((e.rename ρ).firstDefect down defect' s) := by
  rw [firstDefect, firstDefect, preorder_rename hdown, List.findSome?_map]
  apply rel_findSome?
  intro visit
  exact hdefect visit.1 visit.2

/-! ### Variables -/

theorem occurrences_rename (ρ : Var → Var) (e : Expr α) :
    (e.rename ρ).occurrences = e.occurrences.map ρ := by
  induction e with
  | num n => rfl
  | var v => rfl
  | add l r ihl ihr => rw [rename_add, occurrences_add, occurrences_add, ihl, ihr, List.map_append]
  | mul l r ihl ihr => rw [rename_mul, occurrences_mul, occurrences_mul, ihl, ihr, List.map_append]
  | call f args ih =>
    have hargs : args.map (occurrences ∘ rename ρ) = args.map (List.map ρ ∘ occurrences) :=
      List.map_congr_left ih
    rw [rename_call, occurrences_call, occurrences_call, List.flatMap_def, List.flatMap_def,
      List.map_map, hargs, List.map_flatten, List.map_map]

theorem boundBy_rename (ρ : Renaming) (v : Var) (e : Expr α) :
    (e.rename ρ).boundBy (ρ v) = e.boundBy v := by
  simp only [boundBy, occurrences_rename, List.all_map, Function.comp_def, ρ.beq_replace]

theorem stranger?_rename (ρ : Renaming) (v : Var) (e : Expr α) :
    (e.rename ρ).stranger? (ρ v) = (e.stranger? v).map ρ := by
  simp only [stranger?_eq_find?, occurrences_rename, List.find?_map, Function.comp_def, ρ.beq_replace]

theorem callsFit_rename (ρ : Var → Var) (e : Expr α) : (e.rename ρ).callsFit = e.callsFit := by
  induction e with
  | num n => rfl
  | var v => rfl
  | add l r ihl ihr => rw [rename_add, callsFit_add, callsFit_add, ihl, ihr]
  | mul l r ihl ihr => rw [rename_mul, callsFit_mul, callsFit_mul, ihl, ihr]
  | call f args ih =>
    have hargs : (args.map (rename ρ)).all callsFit = args.all callsFit := by
      rw [Bool.eq_iff_iff, List.all_map, List.all_eq_true, List.all_eq_true]
      exact forall₂_congr fun a ha => by rw [Function.comp_apply, ih a ha]
    rw [rename_call, callsFit_call, callsFit_call, List.length_map, hargs]

/-! ### Defects -/

/-- The right operand counts when the left one has no defect, and then no variable in the left one is free. -/
theorem exists_stranger?_or {v : Var} {l r : Expr α} {name : String}
    (h : (l.defect? v).or (r.defect? v) = some (.unboundVariable name))
    (ihl : l.defect? v = some (.unboundVariable name) → ∃ w, l.stranger? v = some w ∧ w.name = name)
    (ihr : r.defect? v = some (.unboundVariable name) → ∃ w, r.stranger? v = some w ∧ w.name = name) :
    ∃ w, (l.stranger? v).or (r.stranger? v) = some w ∧ w.name = name := by
  rcases Option.or_eq_some_iff.mp h with hl | ⟨hl, hr⟩
  · obtain ⟨w, hw, hname⟩ := ihl hl
    exact ⟨w, by rw [hw, Option.some_or], hname⟩
  · obtain ⟨hbound, _⟩ := defect?_eq_none_iff.mp hl
    rw [stranger?_eq_none_iff.mpr hbound, Option.none_or]
    exact ihr hr

/-- A variable in a defect is the first one that is not bound: whatever comes before the defect has none. -/
theorem exists_stranger?_of_defect {v : Var} {e : Expr α} {name : String}
    (h : e.defect? v = some (.unboundVariable name)) :
    ∃ w, e.stranger? v = some w ∧ w.name = name := by
  induction e using arityInduction with
  | num n =>
    rw [defect?_num] at h
    cases h
  | var w =>
    rw [defect?_var] at h
    split at h
    case isTrue => cases h
    case isFalse hw =>
      obtain rfl := Error.unboundVariable.inj (Option.some.inj h)
      exact ⟨w, by rw [stranger?_var, if_neg hw], rfl⟩
  | add l r ihl ihr =>
    rw [defect?_add] at h
    rw [stranger?_add]
    exact exists_stranger?_or h ihl ihr
  | mul l r ihl ihr =>
    rw [defect?_mul] at h
    rw [stranger?_mul]
    exact exists_stranger?_or h ihl ihr
  | sin u ih =>
    rw [defect?_sin] at h
    exact ih h
  | cos u ih =>
    rw [defect?_cos] at h
    exact ih h
  | pow base exponent ihb ihe =>
    rw [defect?_pow] at h
    rw [stranger?_pow]
    exact exists_stranger?_or h ihb ihe
  | misfit f args hf =>
    rw [defect?_misfit _ hf] at h
    cases h

variable [Literal α]

theorem rel_nodeDefect? (ρ : Renaming) (v : Var) (node : Expr α) :
    Option.Rel (Error.Renamed α ρ fun _ => True) (nodeDefect? v node)
      (nodeDefect? (ρ v) (node.rename ρ)) := by
  cases node with
  | num n => exact .none
  | add l r => exact .none
  | mul l r => exact .none
  | var w =>
    rw [rename_var, nodeDefect?, nodeDefect?, ρ.beq_replace]
    split
    · exact .none
    · exact .some (.unboundVariable trivial)
  | call f args =>
    rw [rename_call, nodeDefect?, nodeDefect?, List.length_map]
    split
    · exact .none
    · exact .some (.same fun name h => by cases h)

/-- A related pair of errors that are each the first defect or no matter of a variable is related with the first variable that is not bound. -/
theorem renamed_stranger {ρ : Renaming} {v : Var} {e : Expr α} {error error' : Error}
    (h : Error.Renamed α ρ (fun _ => True) error error')
    (hfirst : ∀ name, error = .unboundVariable name → e.defect? v = some error)
    (hfirst' : ∀ name, error' = .unboundVariable name → (e.rename ρ).defect? (ρ v) = some error') :
    Error.Renamed α ρ (fun w => e.stranger? v = some w) error error' := by
  cases h with
  | unboundVariable _ =>
    obtain ⟨w, hw, hname⟩ := exists_stranger?_of_defect (hfirst _ rfl)
    obtain ⟨w', hw', hname'⟩ := exists_stranger?_of_defect (hfirst' _ rfl)
    rw [stranger?_rename, hw] at hw'
    obtain rfl := Option.some.inj hw'
    rw [← hname, ← hname']
    exact .unboundVariable hw
  | misplaced node => exact .misplaced node
  | same h => exact .same h

theorem rel_defect? (ρ : Renaming) (v : Var) (e : Expr α) :
    Option.Rel (Error.Renamed α ρ fun w => e.stranger? v = some w) (e.defect? v)
      ((e.rename ρ).defect? (ρ v)) := by
  have h : Option.Rel (Error.Renamed α ρ fun _ => True) (e.defect? v) ((e.rename ρ).defect? (ρ v)) :=
    rel_firstDefect (fun _ _ _ => rfl) (fun _ => rel_nodeDefect? ρ v) () e
  rcases rel_iff.mp h with ⟨hnone, hnone'⟩ | ⟨error, error', herror, herror', hrenamed⟩
  · rw [hnone, hnone']
    exact .none
  · have hfirst := renamed_stranger hrenamed (fun _ _ => herror) fun _ _ => herror'
    rw [herror, herror']
    exact .some hfirst

/-! ### Values -/

variable {β : Type} [Add β] [Mul β] [Elementary β] {literal : α → β}

omit [Literal α] in
theorem evaluateAs_rename (ρ : Renaming) {v : Var} {x y : β} {e : Expr α}
    (h : e.evaluateAs literal v x = .ok y) : (e.rename ρ).evaluateAs literal (ρ v) x = .ok y := by
  induction e using arityInduction generalizing y with
  | num n => exact h
  | var w =>
    rw [evaluateAs] at h
    rw [rename_var, evaluateAs, ρ.beq_replace]
    split at h
    case isTrue hw => rwa [if_pos hw]
    case isFalse => cases h
  | add l r ihl ihr =>
    obtain ⟨a, hl, h⟩ := Error.bind_eq_ok_iff.mp h
    obtain ⟨b, hr, h⟩ := Error.bind_eq_ok_iff.mp h
    obtain rfl := Except.ok.inj h
    exact evaluateAs_add (ihl hl) (ihr hr)
  | mul l r ihl ihr =>
    obtain ⟨a, hl, h⟩ := Error.bind_eq_ok_iff.mp h
    obtain ⟨b, hr, h⟩ := Error.bind_eq_ok_iff.mp h
    obtain rfl := Except.ok.inj h
    exact evaluateAs_mul (ihl hl) (ihr hr)
  | sin u ih =>
    obtain ⟨a, hu, h⟩ := Error.bind_eq_ok_iff.mp h
    obtain rfl := Except.ok.inj h
    exact evaluateAs_sin (ih hu)
  | cos u ih =>
    obtain ⟨a, hu, h⟩ := Error.bind_eq_ok_iff.mp h
    obtain rfl := Except.ok.inj h
    exact evaluateAs_cos (ih hu)
  | pow base exponent ihb ihe =>
    obtain ⟨a, hb, h⟩ := Error.bind_eq_ok_iff.mp h
    obtain ⟨b, he, h⟩ := Error.bind_eq_ok_iff.mp h
    obtain rfl := Except.ok.inj h
    exact evaluateAs_pow (ihb hb) (ihe he)
  | misfit f args hf =>
    rw [evaluateAs_misfit hf] at h
    cases h

/-- Evaluation does not see how variables are named and identified, as long as they are kept apart. -/
theorem corresponds_evaluateAs (ρ : Renaming) (literal : α → β) (v : Var) (x : β) (e : Expr α) :
    Error.Corresponds (Error.Renamed α ρ fun w => e.stranger? v = some w) Eq
      (e.evaluateAs literal v x) ((e.rename ρ).evaluateAs literal (ρ v) x) := by
  rcases rel_iff.mp (rel_defect? ρ v e) with ⟨hnone, _⟩ | ⟨error, error', herror, herror', hrenamed⟩
  · obtain ⟨hbound, hfit⟩ := defect?_eq_none_iff.mp hnone
    obtain ⟨y, hy⟩ := exists_evaluateAs literal x hbound hfit
    rw [hy, evaluateAs_rename ρ hy]
    exact .ok rfl
  · rw [evaluateAs_of_defect literal x herror, evaluateAs_of_defect literal x herror']
    exact .error hrenamed

end Expr

end Univariate
