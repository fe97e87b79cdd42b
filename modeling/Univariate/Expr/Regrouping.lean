import Univariate.Expr.Leaves
import Univariate.Expr.Text

/-!
# Sums and products grouped in other ways

The text of a tree shows neither how its sums are grouped nor how its products are, and of a number it shows only how that is written. Trees are regroupings of each other when they differ in this alone, for a relation of numbers that are written in the same way.
-/

namespace Univariate

namespace Expr

variable {α : Type}

def factors : Expr α → List (Expr α)
  | .mul l r => l.factors ++ r.factors
  | e => [e]

@[simp] theorem factors_mul (l r : Expr α) : (mul l r).factors = l.factors ++ r.factors := rfl

theorem factors_ne_nil (e : Expr α) : e.factors ≠ [] := by
  induction e with
  | mul l r ihl _ => exact List.append_ne_nil_of_left_ne_nil ihl _
  | _ => exact List.cons_ne_nil _ _

/-- The least congruence of trees for which sums and products are associative and related numbers are the same. -/
inductive Regrouped (R : α → α → Prop) : Expr α → Expr α → Prop where
  | sum (a b c : Expr α) : Regrouped R (.add (.add a b) c) (.add a (.add b c))
  | product (a b c : Expr α) : Regrouped R (.mul (.mul a b) c) (.mul a (.mul b c))
  | num {m n : α} : R m n → Regrouped R (.num m) (.num n)
  | refl (e : Expr α) : Regrouped R e e
  | symm {a b : Expr α} : Regrouped R a b → Regrouped R b a
  | trans {a b c : Expr α} : Regrouped R a b → Regrouped R b c → Regrouped R a c
  | add {l l' r r' : Expr α} : Regrouped R l l' → Regrouped R r r' → Regrouped R (.add l r) (.add l' r')
  | mul {l l' r r' : Expr α} : Regrouped R l l' → Regrouped R r r' → Regrouped R (.mul l r) (.mul l' r')
  /-- One argument of a call may be grouped in another way. -/
  | argument (f : Func) (before after : List (Expr α)) {a b : Expr α} :
    Regrouped R a b → Regrouped R (.call f (before ++ a :: after)) (.call f (before ++ b :: after))

namespace Regrouped

variable [Literal α] {R : α → α → Prop} {a b : Expr α}

theorem needsParens_eq (hR : ∀ m n, R m n → Literal.isNegative m = Literal.isNegative n)
    (h : Regrouped R a b) : a.needsParens = b.needsParens := by
  induction h with
  | num h => exact hR _ _ h
  | symm _ ih => exact ih.symm
  | trans _ _ ih ih' => exact ih.trans ih'
  | _ => rfl

/-- Nothing in the text says how the sums and the products are grouped. -/
theorem text_eq (hform : ∀ m n, R m n → Literal.form m = Literal.form n)
    (hnegative : ∀ m n, R m n → Literal.isNegative m = Literal.isNegative n)
    (h : Regrouped R a b) : a.text = b.text := by
  induction h with
  | sum a b c => simp only [text, String.append_assoc]
  | product a b c => simp only [text, needsParens, parenthesize, String.append_assoc, if_false, Bool.false_eq_true]
  | num h => rw [text, text, Literal.text, Literal.text, hform _ _ h]
  | refl e => rfl
  | symm _ ih => exact ih.symm
  | trans _ _ ih ih' => exact ih.trans ih'
  | add _ _ ihl ihr => rw [text, text, ihl, ihr]
  | mul hl hr ihl ihr =>
    rw [text, text, ihl, ihr, hl.needsParens_eq hnegative, hr.needsParens_eq hnegative]
  | argument f before after _ ih =>
    simp only [text, argTexts_eq_map, List.map_append, List.map_cons, ih]

end Regrouped

/-! ### Names -/

def IsIdentifier (name : String) : Prop :=
  ∃ c cs, name.toList = c :: cs ∧ c.isAlpha = true ∧ ∀ d ∈ cs, d.isAlphanum = true ∨ d = '_'

/-- Variables that their names tell from numbers and from each other. -/
structure NamedApart (vs : List Var) : Prop where
  isIdentifier : ∀ v ∈ vs, IsIdentifier v.name
  not_reserved : ∀ v ∈ vs, v.name ≠ "NaN" ∧ v.name ≠ "Infinity"
  name_eq_iff : ∀ v ∈ vs, ∀ w ∈ vs, v.name = w.name ↔ (v == w) = true

namespace NamedApart

variable {vs ws : List Var}

theorem subset (h : NamedApart vs) (hws : ws ⊆ vs) : NamedApart ws where
  isIdentifier v hv := h.isIdentifier v (hws hv)
  not_reserved v hv := h.not_reserved v (hws hv)
  name_eq_iff v hv w hw := h.name_eq_iff v (hws hv) w (hws hw)

theorem eq_of_name_eq (h : NamedApart vs) {v w : Var} (hv : v ∈ vs) (hw : w ∈ vs)
    (hname : v.name = w.name) : v = w := by
  have hid := Var.beq_iff.mp ((h.name_eq_iff v hv w hw).mp hname)
  cases v
  cases w
  cases hid
  cases hname
  rfl

end NamedApart

end Expr

end Univariate
