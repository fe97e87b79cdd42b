import Univariate.Derive.Limits
import Univariate.Expr.Terms

/-!
# Derivatives of derivatives

A derivative is a tree again and can be differentiated like any other, within the same limits, which each of the trees on the way has to keep. How often this works depends on the additive terms of the first tree alone, of which few kinds are left after the first time.
-/

namespace Univariate

namespace Expr

variable {α : Type}

def isLinearTerm (v : Var) : Expr α → Bool
  | .num _ => true
  | .var w => w == v
  | _ => false

def isTwiceDerivableTerm (v : Var) : Expr α → Bool
  | .call .sin [.var w] => w == v
  | t => t.isLinearTerm v

theorem isLinearTerm_iff {v : Var} {t : Expr α} :
    t.isLinearTerm v = true ↔ (∃ n, t = .num n) ∨ ∃ w, t = .var w ∧ (w == v) = true := by
  cases t with
  | num n => simp [isLinearTerm]
  | var w => simp [isLinearTerm]
  | add l r => simp [isLinearTerm]
  | mul l r => simp [isLinearTerm]
  | call f args => simp [isLinearTerm]

theorem isTwiceDerivableTerm_iff {v : Var} {t : Expr α} :
    t.isTwiceDerivableTerm v = true ↔
      t.isLinearTerm v = true ∨ ∃ w, t = sin (.var w) ∧ (w == v) = true := by
  by_cases h : ∃ w, t = sin (.var w)
  · obtain ⟨w, rfl⟩ := h
    simp [sin, isTwiceDerivableTerm, isLinearTerm]
  · have hrest : t.isTwiceDerivableTerm v = t.isLinearTerm v := by
      rw [isTwiceDerivableTerm]
      intro w hw
      exact h ⟨w, hw⟩
    rw [hrest]
    refine ⟨Or.inl, ?_⟩
    rintro (hlinear | ⟨w, hw, _⟩)
    · exact hlinear
    · exact absurd ⟨w, hw⟩ h

end Expr

namespace Limits

variable {α : Type} [Zero α] [One α] [Neg α] [Add α] [Sub α] [Mul α] [BEq α] [Literal α]
  {γ : Type} [Count γ] [Counting α γ]

def deriveTimes (limits : Limits) (v : Var) : (order : Nat) → Expr α → Except Error (Expr α)
  | 0, e => .ok e
  | order + 1, e => do (limits.derive v (← deriveTimes limits v order e)).outcome

/-- None of the trees that are differentiated on the way to the derivative of the given order is beyond the limits. -/
def AdmitsOrder (limits : Limits) (v : Var) (e : Expr α) (order : Nat) : Prop :=
  ∀ k < order, ∀ d, limits.deriveTimes v k e = .ok d → limits.check d = .ok ()

end Limits

end Univariate
