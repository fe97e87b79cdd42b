import Mathlib.Data.List.Forall2
import Univariate.Derive.Rules

/-!
# Relations that the rules carry along

Two trees that are much the same ought to have derivatives that are much the same in the same sense. For the sums that are put together and for the chain rule this holds of every relation of trees that is kept by the nodes which the rules build, and that does not take a variable for something else, which the chain rule treats in its own way.
-/

namespace Univariate

namespace Expr

open Error (Agree)

variable {α : Type} {T : Expr α → Expr α → Prop}

/-- Relations of trees that are kept by sums, products and the functions with a derivative. -/
structure TreeCongruence (T : Expr α → Expr α → Prop) : Prop where
  refl (e : Expr α) : T e e
  add {l l' r r' : Expr α} : T l l' → T r r' → T (.add l r) (.add l' r')
  mul {l l' r r' : Expr α} : T l l' → T r r' → T (.mul l r) (.mul l' r')
  sin {u u' : Expr α} : T u u' → T u.sin u'.sin
  cos {u u' : Expr α} : T u u' → T u.cos u'.cos
  asVar?_eq {u u' : Expr α} : T u u' → u.asVar? = u'.asVar?

namespace TreeCongruence

theorem agree_sum (hT : TreeCongruence T) {ts us : List (Expr α)} (h : List.Forall₂ T ts us) :
    Agree T (sum ts) (sum us) := by
  have hadd : Relator.LiftFun T (Relator.LiftFun T T) Expr.add Expr.add :=
    fun _ _ hl _ _ hr => hT.add hl hr
  cases h with
  | nil => exact .error .emptySum
  | cons htu hrest => exact .ok (List.rel_foldl hadd htu hrest)

theorem agree_chain (hT : TreeCongruence T) {outer outer' : Expr α}
    {us us' : Except Error (List (Expr α))} (houter : T outer outer')
    (hinner : Agree (List.Forall₂ T) us us') :
    Agree (List.Forall₂ T) (us >>= fun us => sum us >>= fun d => .ok [.mul outer d])
      (us' >>= fun us => sum us >>= fun d => .ok [.mul outer' d]) :=
  hinner.bind fun _ _ hus => (hT.agree_sum hus).bind fun _ _ hd => .ok (.cons (hT.mul houter hd) .nil)

variable [Zero α] [One α] [Neg α] [Add α] [Sub α] [Mul α] [BEq α] [Literal α]
  {γ : Type} [Count γ] [Counting α γ]
  {v : Var} {u u' : Expr α}

theorem agree_deriveTerms_sin (hT : TreeCongruence T) (h : T u u')
    (hinner : Agree (List.Forall₂ T) (deriveTerms v u).outcome (deriveTerms v u').outcome) :
    Agree (List.Forall₂ T) (deriveTerms v u.sin).outcome (deriveTerms v u'.sin).outcome := by
  cases hu : u.asVar? with
  | some w =>
    obtain rfl := asVar?_eq_some_iff.mp hu
    obtain rfl := asVar?_eq_some_iff.mp ((hT.asVar?_eq h).symm.trans hu)
    exact .of_eq (fun _ => List.forall₂_same.mpr fun _ _ => hT.refl _) rfl
  | none =>
    rw [outcome_deriveTerms_sin v hu, outcome_deriveTerms_sin v ((hT.asVar?_eq h).symm.trans hu)]
    exact hT.agree_chain (hT.cos h) hinner

theorem agree_deriveTerms_cos (hT : TreeCongruence T) (h : T u u')
    (hinner : Agree (List.Forall₂ T) (deriveTerms v u).outcome (deriveTerms v u').outcome) :
    Agree (List.Forall₂ T) (deriveTerms v u.cos).outcome (deriveTerms v u'.cos).outcome := by
  cases hu : u.asVar? with
  | some w =>
    obtain rfl := asVar?_eq_some_iff.mp hu
    obtain rfl := asVar?_eq_some_iff.mp ((hT.asVar?_eq h).symm.trans hu)
    exact .of_eq (fun _ => List.forall₂_same.mpr fun _ _ => hT.refl _) rfl
  | none =>
    rw [outcome_deriveTerms_cos v hu, outcome_deriveTerms_cos v ((hT.asVar?_eq h).symm.trans hu)]
    exact hT.agree_chain (hT.mul (hT.refl _) (hT.sin h)) hinner

end TreeCongruence

end Expr

end Univariate
