import Mathlib.Data.List.Forall2
import Univariate.Expr.Regrouping
import Univariate.Expr.Terms

/-!
# Chains of an operation

A tree of sums is its terms put together by addition in some order of grouping, and a tree of products is its factors put together by multiplication. For a relation of trees that does not see how an operation is grouped, any such tree is related to the chain of its parts that leans to the left, so trees with related parts are related.
-/

namespace Univariate

namespace Expr

variable {α : Type} {T : Expr α → Expr α → Prop} {op : Expr α → Expr α → Expr α}

/-- Equivalences of trees that respect an operation and do not see how it is grouped. -/
structure Regroups (T : Expr α → Expr α → Prop) (op : Expr α → Expr α → Expr α) : Prop where
  refl (e : Expr α) : T e e
  symm {a b : Expr α} : T a b → T b a
  trans {a b c : Expr α} : T a b → T b c → T a c
  congr {l l' r r' : Expr α} : T l l' → T r r' → T (op l r) (op l' r')
  assoc (a b c : Expr α) : T (op (op a b) c) (op a (op b c))

/-- The tree is related to the chain of the given trees that leans to the left. -/
def Combines (T : Expr α → Expr α → Prop) (op : Expr α → Expr α → Expr α) (ts : List (Expr α))
    (e : Expr α) : Prop :=
  ∃ u us, ts = u :: us ∧ T e (us.foldl op u)

namespace Regroups

variable {ts us : List (Expr α)} {a b l r : Expr α}

/-- Having the same value is such an equivalence when the operation is an associative one on the values. -/
theorem of_map {β : Type} {f : Expr α → β} {g : β → β → β} (hf : ∀ l r, f (op l r) = g (f l) (f r))
    (hg : ∀ a b c, g (g a b) c = g a (g b c)) : Regroups (fun a b => f a = f b) op where
  refl _ := rfl
  symm := Eq.symm
  trans := Eq.trans
  congr hl hr := by rw [hf, hf, hl, hr]
  assoc a b c := by rw [hf, hf, hf, hf, hg]

theorem foldl (hT : Regroups T op) (hts : List.Forall₂ T ts us) (hab : T a b) :
    T (ts.foldl op a) (us.foldl op b) := by
  induction hts generalizing a b with
  | nil => exact hab
  | cons htu _ ih => exact ih (hT.congr hab htu)

/-- A tree in front of a chain can be put together with its first part. -/
theorem op_foldl (hT : Regroups T op) (l u : Expr α) (us : List (Expr α)) :
    T (op l (us.foldl op u)) (us.foldl op (op l u)) := by
  induction us generalizing u with
  | nil => exact hT.refl _
  | cons w us ih =>
    rw [List.foldl_cons, List.foldl_cons]
    apply hT.trans (ih (op u w))
    exact hT.foldl (List.forall₂_same.mpr fun t _ => hT.refl t) (hT.symm (hT.assoc l u w))

theorem combines_single (hT : Regroups T op) (e : Expr α) : Combines T op [e] e :=
  ⟨e, [], rfl, hT.refl e⟩

theorem combines_append (hT : Regroups T op) (hl : Combines T op ts l) (hr : Combines T op us r) :
    Combines T op (ts ++ us) (op l r) := by
  obtain ⟨t, ts, rfl, hl⟩ := hl
  obtain ⟨u, us, rfl, hr⟩ := hr
  refine ⟨t, ts ++ u :: us, rfl, ?_⟩
  rw [List.foldl_append, List.foldl_cons]
  exact hT.trans (hT.congr hl hr) (hT.op_foldl _ u us)

theorem related (hT : Regroups T op) (ha : Combines T op ts a) (hb : Combines T op us b)
    (h : List.Forall₂ T ts us) : T a b := by
  obtain ⟨t, ts, rfl, ha⟩ := ha
  obtain ⟨u, us, rfl, hb⟩ := hb
  cases h with
  | cons htu hrest => exact hT.trans ha (hT.trans (hT.foldl hrest htu) (hT.symm hb))

theorem combines_terms (hT : Regroups T .add) (e : Expr α) : Combines T .add e.terms e := by
  induction e with
  | add l r ihl ihr => exact hT.combines_append ihl ihr
  | _ => exact hT.combines_single _

theorem combines_factors (hT : Regroups T .mul) (e : Expr α) : Combines T .mul e.factors e := by
  induction e with
  | mul l r ihl ihr => exact hT.combines_append ihl ihr
  | _ => exact hT.combines_single _

theorem related_of_terms (hT : Regroups T .add) (h : List.Forall₂ T a.terms b.terms) : T a b :=
  hT.related (hT.combines_terms a) (hT.combines_terms b) h

theorem related_of_factors (hT : Regroups T .mul) (h : List.Forall₂ T a.factors b.factors) : T a b :=
  hT.related (hT.combines_factors a) (hT.combines_factors b) h

end Regroups

end Expr

end Univariate
