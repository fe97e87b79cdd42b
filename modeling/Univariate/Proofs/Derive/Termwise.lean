import Univariate.Derive.SingleTerm
import Univariate.Proofs.Derive.Terms

/-!
# A derivative keeps the terms of its tree

Differentiation is the rule for a single term applied to the terms of a tree one after the other, events and failures included. No rule has a sum for its result, not even the chain rule, whose product holds the derivative of a whole sum as a factor. So the terms of a derivative are the derivatives of the terms, none lost and none split, and the sum that is built from them leans to the left.
-/

namespace Univariate

/-! ### Running down a list -/

theorem Traced.outcome_mapM {α β γ : Type} (f : β → Traced α γ) (bs : List β) :
    (bs.mapM f).outcome = bs.mapM fun b => (f b).outcome := by
  induction bs with
  | nil => rfl
  | cons b bs ih =>
    simp only [List.mapM_cons, Traced.outcome_bind, ih]
    rfl

theorem Error.forall₂_of_mapM {β γ : Type} {f : β → Except Error γ} {bs : List β} {cs : List γ}
    (h : bs.mapM f = .ok cs) : List.Forall₂ (fun b c => f b = .ok c) bs cs := by
  induction bs generalizing cs with
  | nil =>
    obtain rfl := Except.ok.inj h
    exact .nil
  | cons b bs ih =>
    rw [List.mapM_cons] at h
    obtain ⟨c, hc, h⟩ := bind_eq_ok_iff.mp h
    obtain ⟨cs, hcs, h⟩ := bind_eq_ok_iff.mp h
    obtain rfl := Except.ok.inj h
    exact .cons hc (ih hcs)

namespace Expr

variable {α : Type} [Zero α] [One α] [Neg α] [Add α] [Sub α] [Mul α] [BEq α] [Literal α]
  {γ : Type} [Count γ] [Counting α γ]
  {v : Var}

/-! ### One term after the other -/

theorem finishTerm_termRule (v : Var) (t : Expr α) :
    finishTerm t (termRule v t) = [t].mapM (deriveTerm v) := by
  simp only [finishTerm, deriveTerm, List.mapM_cons, List.mapM_nil, bind_assoc, pure_bind]

theorem deriveTerms_of_isSum {t : Expr α} (h : t.isSum = false) :
    deriveTerms v t = finishTerm t (termRule v t) := by
  cases t with
  | num n => rfl
  | var w => rfl
  | add l r => cases h
  | mul l r => rfl
  | call f args =>
    cases f with
    | pow => rfl
    | sin | cos =>
      match args with
      | [] => rfl
      | [_] => rfl
      | _ :: _ :: _ => rfl

theorem deriveTerms_eq_mapM (v : Var) (e : Expr α) : deriveTerms v e = e.terms.mapM (deriveTerm v) := by
  induction e with
  | add l r ihl ihr => rw [deriveTerms, terms_add, List.mapM_append, ihl, ihr]
  | _ => exact (deriveTerms_of_isSum rfl).trans (finishTerm_termRule v _)

theorem deriveSum_eq (v : Var) (e : Expr α) :
    deriveSum v e = e.terms.mapM (deriveTerm v) >>= fun ts => Traced.ofExcept (sum ts) := by
  rw [deriveSum, deriveTerms_eq_mapM]

theorem DerivesTo.of_deriveTerm {t s : Expr α} (ht : t.isSum = false)
    (h : (deriveTerm v t).outcome = .ok s) : DerivesTo v t [s] := by
  apply DerivesTo.of_outcome
  rw [deriveTerms_eq_mapM, terms_of_isSum ht, Traced.outcome_mapM, List.mapM_cons, h]
  rfl

theorem isSum_of_deriveTerm {t s : Expr α} (h : (deriveTerm v t).outcome = .ok s) :
    s.isSum = false := by
  cases ht : t.isSum with
  | true =>
    cases t with
    | add l r => cases h
    | _ => cases ht
  | false => exact (DerivesTo.of_deriveTerm ht h).isSum s (List.mem_singleton_self s)

theorem forall₂_deriveTerm {e d : Expr α} (h : (deriveSum v e).outcome = .ok d) :
    List.Forall₂ (fun t s => (deriveTerm v t).outcome = .ok s) e.terms d.terms ∧
      sum d.terms = .ok d := by
  obtain ⟨ts, hts, hsum⟩ := outcome_deriveSum_eq_ok_iff.mp h
  rw [terms_sum hts.isSum hsum]
  refine ⟨Error.forall₂_of_mapM ?_, hsum⟩
  rw [← Traced.outcome_mapM, ← deriveTerms_eq_mapM, hts.outcome_eq]

/-! ### Sums of two trees -/

/-- The derivatives of the terms can be read off their sum. -/
theorem outcome_deriveTerms_eq_map (v : Var) (e : Expr α) :
    (deriveTerms v e).outcome = (deriveSum v e).outcome.map terms := by
  cases h : (deriveTerms v e).outcome with
  | error error =>
    rw [deriveSum, Traced.outcome_bind, h]
    rfl
  | ok ts =>
    have hts := DerivesTo.of_outcome h
    obtain ⟨d, hd⟩ := hts.exists_sum
    rw [outcome_deriveSum_eq_ok_iff.mpr ⟨ts, hts, hd⟩]
    exact congrArg Except.ok (terms_sum hts.isSum hd).symm

theorem outcome_deriveSum_add (v : Var) (l r : Expr α) :
    (deriveSum v (.add l r)).outcome =
      (deriveSum v l).outcome >>= fun a => (deriveSum v r).outcome >>= fun b =>
        sum (a.terms ++ b.terms) := by
  rw [deriveSum, Traced.outcome_bind, outcome_deriveTerms_add, outcome_deriveTerms_eq_map v l,
    outcome_deriveTerms_eq_map v r]
  cases (deriveSum v l).outcome with
  | error error => rfl
  | ok a => cases (deriveSum v r).outcome <;> rfl

theorem exists_deriveSum_add_iff {l r : Expr α} :
    (∃ d, (deriveSum v (.add l r)).outcome = .ok d) ↔
      (∃ a, (deriveSum v l).outcome = .ok a) ∧ ∃ b, (deriveSum v r).outcome = .ok b := by
  rw [outcome_deriveSum_add]
  constructor
  · rintro ⟨d, h⟩
    obtain ⟨a, hl, h⟩ := Error.bind_eq_ok_iff.mp h
    obtain ⟨b, hr, _⟩ := Error.bind_eq_ok_iff.mp h
    exact ⟨⟨a, hl⟩, b, hr⟩
  · rintro ⟨⟨a, hl⟩, b, hr⟩
    obtain ⟨d, hd⟩ := exists_sum_terms (.add a b)
    rw [hl, hr]
    exact ⟨d, hd⟩

theorem terms_of_deriveSum_add {l r a b d : Expr α} (hl : (deriveSum v l).outcome = .ok a)
    (hr : (deriveSum v r).outcome = .ok b) (h : (deriveSum v (.add l r)).outcome = .ok d) :
    d.terms = a.terms ++ b.terms := by
  rw [outcome_deriveSum_add, hl, hr] at h
  refine terms_sum (fun t ht => ?_) h
  rcases List.mem_append.mp ht with ht | ht
  · exact (of_mem_terms ht).1
  · exact (of_mem_terms ht).1

/-- A derivative is the sum, leaning to the left, of the derivatives of the terms in order, none of which is a sum. So the derivative of a sum of two trees exists when those of both trees do, and has the terms of the first and then those of the second; otherwise the error is that of the first tree that has no derivative. -/
theorem deriveSum_keeps_terms (v : Var) :
    (∀ e : Expr α,
        deriveSum v e = e.terms.mapM (deriveTerm v) >>= fun ts => Traced.ofExcept (sum ts)) ∧
      (∀ t s : Expr α, (deriveTerm v t).outcome = .ok s → s.isSum = false) ∧
      (∀ e d : Expr α, (deriveSum v e).outcome = .ok d →
        List.Forall₂ (fun t s => (deriveTerm v t).outcome = .ok s) e.terms d.terms ∧
          d.leansLeft = true) ∧
      ∀ l r : Expr α,
        ((∃ d, (deriveSum v (.add l r)).outcome = .ok d) ↔
            (∃ a, (deriveSum v l).outcome = .ok a) ∧ ∃ b, (deriveSum v r).outcome = .ok b) ∧
          (∀ a b d, (deriveSum v l).outcome = .ok a → (deriveSum v r).outcome = .ok b →
            (deriveSum v (.add l r)).outcome = .ok d → d.terms = a.terms ++ b.terms) ∧
          (∀ error, (deriveSum v l).outcome = .error error →
            (deriveSum v (.add l r)).outcome = .error error) ∧
          ∀ a error, (deriveSum v l).outcome = .ok a → (deriveSum v r).outcome = .error error →
            (deriveSum v (.add l r)).outcome = .error error := by
  refine ⟨deriveSum_eq v, fun t s => isSum_of_deriveTerm, ?_, fun l r =>
    ⟨exists_deriveSum_add_iff, fun a b d => terms_of_deriveSum_add, ?_, ?_⟩⟩
  · intro e d h
    obtain ⟨hterms, hsum⟩ := forall₂_deriveTerm h
    exact ⟨hterms, leansLeft_sum (fun t ht => (of_mem_terms ht).1) hsum⟩
  · intro error hl
    rw [outcome_deriveSum_add, hl]
    rfl
  · intro a error hl hr
    rw [outcome_deriveSum_add, hl, hr]
    rfl

end Expr

end Univariate
