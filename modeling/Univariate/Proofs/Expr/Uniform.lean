import Univariate.Expr.Evaluate
import Univariate.Expr.Variables

/-!
# Evaluation over related scalars

Evaluation looks at no scalar. Which defect it meets is decided by the tree and the bound variable, and scalars are only handed on to the operations. So a relation between two types of scalars that is kept by the operations is carried from the numbers of a tree and the point to the outcomes: both evaluations have values that are related, or both fail with the same error. The relation that holds always says that neither the point nor the type of the scalars has a part in the error.
-/

namespace Univariate

namespace Expr

open Error (Agree)

variable {α β γ : Type} [Add β] [Mul β] [Elementary β] [Add γ] [Mul γ] [Elementary γ]

/-- Relations of scalars that are kept by everything a tree can compute. -/
structure ScalarCongruence (R : β → γ → Prop) : Prop where
  add {a b : β} {c d : γ} : R a c → R b d → R (a + b) (c + d)
  mul {a b : β} {c d : γ} : R a c → R b d → R (a * b) (c * d)
  sin {a : β} {c : γ} : R a c → R (Elementary.sin a) (Elementary.sin c)
  cos {a : β} {c : γ} : R a c → R (Elementary.cos a) (Elementary.cos c)
  pow {a b : β} {c d : γ} : R a c → R b d → R (Elementary.pow a b) (Elementary.pow c d)

theorem ScalarCongruence.total : ScalarCongruence fun (_ : β) (_ : γ) => True where
  add _ _ := trivial
  mul _ _ := trivial
  sin _ := trivial
  cos _ := trivial
  pow _ _ := trivial

variable {R : β → γ → Prop}

/-- Evaluation takes related numbers to related outcomes. The points need not be related if the tree does not refer to the variable. -/
theorem ScalarCongruence.agree_evaluateAs_of_containsVar (hR : ScalarCongruence R) {literal : α → β}
    {literal' : α → γ} (hliteral : ∀ n, R (literal n) (literal' n)) (v : Var) {x : β} {x' : γ}
    {e : Expr α} (hx : e.containsVar v = true → R x x') :
    Agree R (e.evaluateAs literal v x) (e.evaluateAs literal' v x') := by
  induction e using arityInduction with
  | num n => exact .ok (hliteral n)
  | var w =>
    rw [evaluateAs, evaluateAs]
    split
    case isTrue hw => exact .ok (hx hw)
    case isFalse => exact .error _
  | add l r ihl ihr =>
    rw [containsVar_add, Bool.or_eq_true] at hx
    exact (ihl fun h => hx (.inl h)).bind fun _ _ hl =>
      (ihr fun h => hx (.inr h)).bind fun _ _ hr => .ok (hR.add hl hr)
  | mul l r ihl ihr =>
    rw [containsVar_mul, Bool.or_eq_true] at hx
    exact (ihl fun h => hx (.inl h)).bind fun _ _ hl =>
      (ihr fun h => hx (.inr h)).bind fun _ _ hr => .ok (hR.mul hl hr)
  | sin u ih =>
    rw [containsVar_sin] at hx
    exact (ih hx).bind fun _ _ hu => .ok (hR.sin hu)
  | cos u ih =>
    rw [containsVar_cos] at hx
    exact (ih hx).bind fun _ _ hu => .ok (hR.cos hu)
  | pow base exponent ihb ihe =>
    rw [containsVar_pow, Bool.or_eq_true] at hx
    exact (ihb fun h => hx (.inl h)).bind fun _ _ hb =>
      (ihe fun h => hx (.inr h)).bind fun _ _ he => .ok (hR.pow hb he)
  | misfit f args hf =>
    rw [evaluateAs_misfit hf, evaluateAs_misfit hf]
    exact .error _

/-- Evaluation takes related numbers and a related point to related outcomes. -/
theorem ScalarCongruence.agree_evaluateAs (hR : ScalarCongruence R) {literal : α → β}
    {literal' : α → γ} (hliteral : ∀ n, R (literal n) (literal' n)) (v : Var) {x : β} {x' : γ}
    (hx : R x x') (e : Expr α) :
    Agree R (e.evaluateAs literal v x) (e.evaluateAs literal' v x') :=
  hR.agree_evaluateAs_of_containsVar hliteral v fun _ => hx

end Expr

end Univariate
