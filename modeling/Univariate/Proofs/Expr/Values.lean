import Univariate.Expr.Defect
import Univariate.Expr.Evaluate
import Univariate.Expr.Scope
import Mathlib.Tactic.Tauto

/-!
# Which trees have a value

A tree that refers to no variable but the bound one, and calls every function with the right number of arguments, has a value at every point. The scalars have no part in it: an operation always gives some scalar. Every other tree has a defect, and evaluation, which goes from left to right, fails with the first.
-/

namespace Univariate

namespace Expr

variable {α β : Type}

theorem defect?_eq_none_iff {e : Expr α} {v : Var} :
    e.defect? v = none ↔ e.boundBy v = true ∧ e.callsFit = true := by
  induction e using arityInduction with
  | num n => simp [defect?_num]
  | var w =>
    rw [defect?_var]
    split
    case isTrue hw => simp [hw]
    case isFalse hw => simp [hw]
  | add l r ihl ihr =>
    rw [defect?_add, Option.or_eq_none_iff, ihl, ihr]
    simp only [boundBy_add, callsFit_add, Bool.and_eq_true]
    tauto
  | mul l r ihl ihr =>
    rw [defect?_mul, Option.or_eq_none_iff, ihl, ihr]
    simp only [boundBy_mul, callsFit_mul, Bool.and_eq_true]
    tauto
  | sin u ih => rw [defect?_sin, ih, boundBy_sin, callsFit_sin]
  | cos u ih => rw [defect?_cos, ih, boundBy_cos, callsFit_cos]
  | pow base exponent ihb ihe =>
    rw [defect?_pow, Option.or_eq_none_iff, ihb, ihe]
    simp only [boundBy_pow, callsFit_pow, Bool.and_eq_true]
    tauto
  | misfit f args hf =>
    rw [defect?_misfit _ hf]
    simp [hf]

variable [Add β] [Mul β] [Elementary β]

theorem exists_evaluateAs {e : Expr α} {v : Var} (literal : α → β) (x : β)
    (hbound : e.boundBy v = true) (hfit : e.callsFit = true) :
    ∃ y, e.evaluateAs literal v x = .ok y := by
  induction e using arityInduction with
  | num n => exact ⟨literal n, rfl⟩
  | var w => exact ⟨x, evaluateAs_var (by simpa using hbound)⟩
  | add l r ihl ihr =>
    rw [boundBy_add, Bool.and_eq_true] at hbound
    rw [callsFit_add, Bool.and_eq_true] at hfit
    obtain ⟨a, ha⟩ := ihl hbound.1 hfit.1
    obtain ⟨b, hb⟩ := ihr hbound.2 hfit.2
    exact ⟨a + b, evaluateAs_add ha hb⟩
  | mul l r ihl ihr =>
    rw [boundBy_mul, Bool.and_eq_true] at hbound
    rw [callsFit_mul, Bool.and_eq_true] at hfit
    obtain ⟨a, ha⟩ := ihl hbound.1 hfit.1
    obtain ⟨b, hb⟩ := ihr hbound.2 hfit.2
    exact ⟨a * b, evaluateAs_mul ha hb⟩
  | sin u ih =>
    obtain ⟨a, ha⟩ := ih (by simpa using hbound) (by simpa using hfit)
    exact ⟨Elementary.sin a, evaluateAs_sin ha⟩
  | cos u ih =>
    obtain ⟨a, ha⟩ := ih (by simpa using hbound) (by simpa using hfit)
    exact ⟨Elementary.cos a, evaluateAs_cos ha⟩
  | pow base exponent ihb ihe =>
    rw [boundBy_pow, Bool.and_eq_true] at hbound
    rw [callsFit_pow, Bool.and_eq_true] at hfit
    obtain ⟨a, ha⟩ := ihb hbound.1 hfit.1
    obtain ⟨b, hb⟩ := ihe hbound.2 hfit.2
    exact ⟨Elementary.pow a b, evaluateAs_pow ha hb⟩
  | misfit f args hf => simp [hf] at hfit

/-- Of two operands the right one counts only when the left one has a value. -/
theorem bind_evaluateAs_of_defect {literal : α → β} {v : Var} {x : β} {l r : Expr α} {error : Error}
    (op : β → β → β) (h : (l.defect? v).or (r.defect? v) = some error)
    (ihl : l.defect? v = some error → l.evaluateAs literal v x = .error error)
    (ihr : r.defect? v = some error → r.evaluateAs literal v x = .error error) :
    (do return op (← l.evaluateAs literal v x) (← r.evaluateAs literal v x)) = .error error := by
  rcases Option.or_eq_some_iff.mp h with hl | ⟨hl, hr⟩
  · rw [ihl hl]
    rfl
  · obtain ⟨hbound, hfit⟩ := defect?_eq_none_iff.mp hl
    obtain ⟨a, ha⟩ := exists_evaluateAs literal x hbound hfit
    rw [ha, ihr hr]
    rfl

theorem evaluateAs_of_defect {e : Expr α} {v : Var} {error : Error} (literal : α → β) (x : β)
    (h : e.defect? v = some error) : e.evaluateAs literal v x = .error error := by
  induction e using arityInduction with
  | num n =>
    rw [defect?_num] at h
    cases h
  | var w =>
    rw [defect?_var] at h
    rw [evaluateAs]
    split at h
    case isTrue => cases h
    case isFalse hw => rw [if_neg hw, Option.some.inj h]
  | add l r ihl ihr =>
    rw [defect?_add] at h
    exact bind_evaluateAs_of_defect (· + ·) h ihl ihr
  | mul l r ihl ihr =>
    rw [defect?_mul] at h
    exact bind_evaluateAs_of_defect (· * ·) h ihl ihr
  | sin u ih =>
    rw [defect?_sin] at h
    rw [sin, evaluateAs, ih h]
    rfl
  | cos u ih =>
    rw [defect?_cos] at h
    rw [cos, evaluateAs, ih h]
    rfl
  | pow base exponent ihb ihe =>
    rw [defect?_pow] at h
    exact bind_evaluateAs_of_defect Elementary.pow h ihb ihe
  | misfit f args hf =>
    rw [defect?_misfit _ hf] at h
    rw [evaluateAs_misfit hf, Option.some.inj h]

section Outcome

variable {e : Expr α} {v : Var} {literal : α → β} {x : β}

theorem exists_evaluateAs_iff :
    (∃ y, e.evaluateAs literal v x = .ok y) ↔ e.boundBy v = true ∧ e.callsFit = true := by
  constructor
  · rintro ⟨y, hy⟩
    rw [← defect?_eq_none_iff]
    cases h : e.defect? v with
    | none => rfl
    | some error =>
      rw [evaluateAs_of_defect literal x h] at hy
      cases hy
  · rintro ⟨hbound, hfit⟩
    exact exists_evaluateAs literal x hbound hfit

theorem evaluateAs_eq_error_iff {error : Error} :
    e.evaluateAs literal v x = .error error ↔ e.defect? v = some error := by
  constructor
  · intro herror
    cases h : e.defect? v with
    | none =>
      obtain ⟨hbound, hfit⟩ := defect?_eq_none_iff.mp h
      obtain ⟨y, hy⟩ := exists_evaluateAs literal x hbound hfit
      rw [hy] at herror
      cases herror
    | some error' =>
      rw [evaluateAs_of_defect literal x h] at herror
      cases herror
      rfl
  · exact evaluateAs_of_defect literal x

end Outcome

end Expr

end Univariate
