import Univariate.Proofs.Derive.Refusal
import Univariate.Proofs.Expr.Sums
import Mathlib.Data.List.Forall2

/-!
# Term by term

Differentiation keeps the additive terms of a tree apart: each of them has one derivative, which is no sum itself, and the sum of the derivatives has these for its terms again. So the terms of a derivative are known by the terms of the tree it comes from, one by one and in order, and what holds of a tree because it holds of its terms can be followed through any number of derivatives.
-/

namespace Univariate

namespace Expr

variable {α : Type}

/-! ### Trees and their terms -/

theorem boundBy_iff_terms {v : Var} {e : Expr α} :
    e.boundBy v = true ↔ ∀ t ∈ e.terms, t.boundBy v = true := by
  induction e with
  | add l r ihl ihr =>
    rw [boundBy_add, Bool.and_eq_true, ihl, ihr, terms_add, List.forall_mem_append]
  | _ => simp [terms]

theorem isDifferentiable_add_iff {l r : Expr α} :
    (add l r).IsDifferentiable ↔ l.IsDifferentiable ∧ r.IsDifferentiable := by
  constructor
  · rintro (_ | _ | ⟨hl, hr⟩)
    exact ⟨hl, hr⟩
  · rintro ⟨hl, hr⟩
    exact .add hl hr

theorem isDifferentiable_iff_terms {e : Expr α} :
    e.IsDifferentiable ↔ ∀ t ∈ e.terms, t.IsDifferentiable := by
  induction e with
  | add l r ihl ihr => rw [isDifferentiable_add_iff, ihl, ihr, terms_add, List.forall_mem_append]
  | _ => simp [terms]

/-! ### Derivatives and their terms -/

variable [Zero α] [One α] [Neg α] [Add α] [Sub α] [Mul α] [BEq α] [Literal α] {v : Var}
  {γ : Type} [Count γ] [Counting α γ]
  {e : Expr α} {ts us : List (Expr α)}

theorem DerivesTo.unique (h : DerivesTo v e ts) (h' : DerivesTo v e us) : ts = us :=
  Except.ok.inj (h.outcome_eq.symm.trans h'.outcome_eq)

/-- No rule has a sum for its result. -/
theorem DerivesTo.isSum (h : DerivesTo v e ts) : ∀ t ∈ ts, t.isSum = false := by
  induction h with
  | add _ _ ihl ihr => exact List.forall_mem_append.mpr ⟨ihl, ihr⟩
  | _ =>
    intro t ht
    obtain rfl := List.mem_singleton.mp ht
    rfl

theorem DerivesTo.forall₂_terms (h : DerivesTo v e ts) :
    List.Forall₂ (fun t d => DerivesTo v t [d]) e.terms ts := by
  induction h with
  | num n => exact .cons (.num n) .nil
  | var w => exact .cons (.var w) .nil
  | add _ _ ihl ihr => exact List.rel_append ihl ihr
  | mul htally => exact .cons (.mul htally) .nil
  | sinVar w => exact .cons (.sinVar w) .nil
  | cosVar w => exact .cons (.cosVar w) .nil
  | sin hu hus hd _ => exact .cons (.sin hu hus hd) .nil
  | cos hu hus hd _ => exact .cons (.cos hu hus hd) .nil

end Expr

namespace Limits

variable {α : Type} [Zero α] [One α] [Neg α] [Add α] [Sub α] [Mul α] [BEq α] [Literal α]
  {γ : Type} [Count γ] [Counting α γ]
  {limits : Limits} {v : Var} {e d : Expr α}

/-- The terms of a derivative are the derivatives of the terms, of which it is the sum. -/
theorem terms_of_outcome_derive (h : (limits.derive v e).outcome = .ok d) :
    Expr.sum d.terms = .ok d ∧
      List.Forall₂ (fun t s => Expr.DerivesTo v t [s]) e.terms d.terms := by
  obtain ⟨_, _, _, ts, hts, hsum⟩ := outcome_derive_eq_ok_iff.mp h
  rw [Expr.terms_sum hts.isSum hsum]
  exact ⟨hsum, hts.forall₂_terms⟩

theorem exists_outcome_derive_iff (hcheck : limits.check e = .ok ()) :
    (∃ d, (limits.derive v e).outcome = .ok d) ↔
      ∀ t ∈ e.terms, t.boundBy v = true ∧ t.IsDifferentiable := by
  obtain ⟨hdepth, hnodes⟩ := check_eq_ok_iff.mp hcheck
  rw [forall₂_and, ← Expr.boundBy_iff_terms, ← Expr.isDifferentiable_iff_terms]
  constructor
  · rintro ⟨d, hd⟩
    obtain ⟨_, _, hbound, ts, hts, _⟩ := outcome_derive_eq_ok_iff.mp hd
    exact ⟨hbound, hts.isDifferentiable⟩
  · rintro ⟨hbound, hdifferentiable⟩
    exact exists_outcome_derive (refusal?_eq_none_iff.mpr ⟨hdepth, hnodes, hbound, hdifferentiable⟩)

end Limits

end Univariate
