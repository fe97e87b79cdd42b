import Univariate.Dual.Evaluate
import Univariate.Proofs.Expr.Uniform
import Univariate.Proofs.Expr.Values

/-!
# The value part of a dual number

Every operation on dual numbers does to the values what it does to scalars, and lets no derivative into them. So evaluation by dual numbers gives the ordinary value besides the derivative, whatever the scalars are, and it fails where ordinary evaluation does and with the same error.
-/

namespace Univariate

section Power

variable {α : Type} [Zero α] [One α] [Add α] [Sub α] [Mul α] [Div α] [BEq α] [Elementary α] [Logarithm α]

theorem Dual.pow_val (a b : Dual α) : (a.pow b).val = Elementary.pow a.val b.val := by
  rw [Dual.pow]
  split <;> rfl

end Power

namespace Expr

open Error (Agree)

variable {α β : Type} [Zero β] [One β] [Neg β] [Add β] [Sub β] [Mul β] [Div β] [BEq β] [Elementary β]
  [Logarithm β] {literal : α → β} {v : Var} {x : β}

/-- No derivative gets into a value. -/
theorem val_congruence : ScalarCongruence fun (g : Dual β) (y : β) => g.val = y where
  add ha hb := congrArg₂ (· + ·) ha hb
  mul ha hb := congrArg₂ (· * ·) ha hb
  sin ha := congrArg Elementary.sin ha
  cos ha := congrArg Elementary.cos ha
  pow ha hb := (Dual.pow_val _ _).trans (congrArg₂ Elementary.pow ha hb)

theorem agree_evaluateDualAs (literal : α → β) (v : Var) (x : β) (e : Expr α) :
    Agree (fun g y => g.val = y) (e.evaluateDualAs literal v x) (e.evaluateAs literal v x) :=
  val_congruence.agree_evaluateAs (fun _ => rfl) v rfl e

theorem evaluateAs_of_evaluateDualAs {e : Expr α} {g : Dual β}
    (h : e.evaluateDualAs literal v x = .ok g) : e.evaluateAs literal v x = .ok g.val := by
  obtain ⟨y, hy, rfl⟩ := (agree_evaluateDualAs literal v x e).exists_of_eq_ok h
  exact hy

theorem evaluate_of_evaluateDual {e : Expr β} {g : Dual β} (h : e.evaluateDual v x = .ok g) :
    e.evaluate v x = .ok g.val :=
  evaluateAs_of_evaluateDualAs h

/-- Evaluation succeeds at every point or at none, which the variables and the calls of the tree decide. Evaluation by dual numbers succeeds for the same trees with the same value and fails for the others with the same error. -/
theorem evaluateDual_follows_evaluate (v : Var) (x : β) (e : Expr β) :
    ((∃ y, e.evaluate v x = .ok y) ↔ e.boundBy v = true ∧ e.callsFit = true) ∧
      (∀ x' error, e.evaluate v x' = .error error ↔ e.evaluate v x = .error error) ∧
      ((∃ g, e.evaluateDual v x = .ok g) ↔ e.boundBy v = true ∧ e.callsFit = true) ∧
      (∀ error, e.evaluateDual v x = .error error ↔ e.evaluate v x = .error error) ∧
      (∀ g, e.evaluateDual v x = .ok g → e.evaluate v x = .ok g.val) := by
  refine ⟨exists_evaluateAs_iff, ?_, exists_evaluateAs_iff, ?_, fun g => evaluate_of_evaluateDual⟩
  · intro x' error
    exact (ScalarCongruence.total.agree_evaluateAs (fun _ => trivial) v trivial e).eq_error_iff
  · intro error
    exact (agree_evaluateDualAs id v x e).eq_error_iff

end Expr

end Univariate
