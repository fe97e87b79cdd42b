import Univariate.Expr.Leaves
import Univariate.Expr.Text

/-!
# Sums nested in other ways

A sum of three terms can be nested in two ways. Trees are re-nestings of each other when they differ in this alone, wherever the sums stand: at the top, in the arguments of calls or inside products. Neither the text of a tree nor its variables tell its re-nestings apart.
-/

namespace Univariate

namespace Expr

variable {α : Type}

/-- The least congruence of trees for which addition is associative. -/
inductive Renested : Expr α → Expr α → Prop where
  | assoc (a b c : Expr α) : Renested (.add (.add a b) c) (.add a (.add b c))
  | refl (e : Expr α) : Renested e e
  | symm {a b : Expr α} : Renested a b → Renested b a
  | trans {a b c : Expr α} : Renested a b → Renested b c → Renested a c
  | add {l l' r r' : Expr α} : Renested l l' → Renested r r' → Renested (.add l r) (.add l' r')
  | mul {l l' r r' : Expr α} : Renested l l' → Renested r r' → Renested (.mul l r) (.mul l' r')
  /-- One argument of a call may be nested in another way. -/
  | argument (f : Func) (before after : List (Expr α)) {a b : Expr α} :
    Renested a b → Renested (.call f (before ++ a :: after)) (.call f (before ++ b :: after))

namespace Renested

variable {a b : Expr α}

theorem sin (h : Renested a b) : Renested a.sin b.sin := argument .sin [] [] h

theorem cos (h : Renested a b) : Renested a.cos b.cos := argument .cos [] [] h

theorem asVar?_eq (h : Renested a b) : a.asVar? = b.asVar? := by
  induction h with
  | symm _ ih => exact ih.symm
  | trans _ _ ih ih' => exact ih.trans ih'
  | _ => rfl

theorem occurrences_eq (h : Renested a b) : a.occurrences = b.occurrences := by
  induction h with
  | assoc a b c => simp only [occurrences_add, List.append_assoc]
  | refl e => rfl
  | symm _ ih => exact ih.symm
  | trans _ _ ih ih' => exact ih.trans ih'
  | add _ _ ihl ihr => rw [occurrences_add, occurrences_add, ihl, ihr]
  | mul _ _ ihl ihr => rw [occurrences_mul, occurrences_mul, ihl, ihr]
  | argument f before after _ ih =>
    simp only [occurrences_call, List.flatMap_append, List.flatMap_cons, ih]

variable [Literal α]

theorem needsParens_eq (h : Renested a b) : a.needsParens = b.needsParens := by
  induction h with
  | symm _ ih => exact ih.symm
  | trans _ _ ih ih' => exact ih.trans ih'
  | _ => rfl

theorem text_eq (h : Renested a b) : a.text = b.text := by
  induction h with
  | assoc a b c => simp only [text, String.append_assoc]
  | refl e => rfl
  | symm _ ih => exact ih.symm
  | trans _ _ ih ih' => exact ih.trans ih'
  | add _ _ ihl ihr => rw [text, text, ihl, ihr]
  | mul hl hr ihl ihr => rw [text, text, ihl, ihr, hl.needsParens_eq, hr.needsParens_eq]
  | argument f before after _ ih =>
    simp only [text, argTexts_eq_map, List.map_append, List.map_cons, ih]

end Renested

end Expr

end Univariate
