import Univariate.Expr.Basic

/-!
# Sums and their terms

The additive terms of a tree are what its sums at the top put together, from left to right, however they are nested; a tree that is no sum is its own only term. Going back, a list of terms is put together into the sum that leans to the left.
-/

namespace Univariate

namespace Expr

variable {α : Type}

def isSum : Expr α → Bool
  | .add _ _ => true
  | _ => false

/-- The additive terms of a tree from left to right. -/
def terms : Expr α → List (Expr α)
  | .add l r => l.terms ++ r.terms
  | e => [e]

/-- The sum of the terms, leaning to the left. A single term is its own sum. -/
def sum : List (Expr α) → Except Error (Expr α)
  | [] => .error .emptySum
  | t :: ts => .ok (ts.foldl .add t)

/-- Whether no sum among those at the top has a sum for its right operand. -/
def leansLeft : Expr α → Bool
  | .add l r => l.leansLeft && r.leansLeft && !r.isSum
  | _ => true

/-- The products among the additive terms of a tree, and among those of the arguments of its sines and cosines. -/
def productTerms : Expr α → List (Expr α)
  | .add l r => l.productTerms ++ r.productTerms
  | .mul l r => [.mul l r]
  | .call .sin [u] => u.productTerms
  | .call .cos [u] => u.productTerms
  | _ => []

@[simp] theorem terms_add (l r : Expr α) : (add l r).terms = l.terms ++ r.terms := rfl

theorem terms_of_isSum {e : Expr α} (h : e.isSum = false) : e.terms = [e] := by
  cases e with
  | add l r => cases h
  | _ => rfl

theorem leansLeft_of_isSum {e : Expr α} (h : e.isSum = false) : e.leansLeft = true := by
  cases e with
  | add l r => cases h
  | _ => rfl

theorem terms_ne_nil (e : Expr α) : e.terms ≠ [] := by
  induction e with
  | add l r ihl _ => exact List.append_ne_nil_of_left_ne_nil ihl _
  | _ => exact List.cons_ne_nil _ _

theorem sum_eq_ok_iff {ts : List (Expr α)} {d : Expr α} :
    sum ts = .ok d ↔ ∃ u us, ts = u :: us ∧ d = us.foldl .add u := by
  cases ts with
  | nil => simp [sum]
  | cons u us =>
    constructor
    · intro h
      exact ⟨u, us, rfl, (Except.ok.inj h).symm⟩
    · rintro ⟨_, _, h, rfl⟩
      cases h
      rfl

end Expr

end Univariate
