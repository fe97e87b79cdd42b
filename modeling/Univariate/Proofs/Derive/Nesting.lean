import Univariate.Expr.Renesting
import Univariate.Proofs.Derive.Congruence
import Univariate.Proofs.Derive.Terms
import Univariate.Proofs.Expr.Chains
import Univariate.Proofs.Expr.Similar

/-!
# The nesting of sums does not matter

Differentiation takes a tree and any re-nesting of it to results that are re-nestings of each other, or refuses both with the same error. The nesting can be different inside an argument, which the chain rule copies as well as differentiates, and inside a product that is refused with its text in the error. So the proof is an induction along the congruence, in which everything on the way of a term has to respect it: the text, the tally of a product, the rule of a call and the sum of the results. Outcomes that agree up to a relation compose as the computations do, so that each rule needs its own case only once.
-/

namespace Univariate

namespace Expr

open Error (Agree)

variable {α : Type}

/-! ### Lists of re-nestings -/

abbrev RenestedAll : List (Expr α) → List (Expr α) → Prop := List.Forall₂ Renested

theorem renestedAll_refl (ts : List (Expr α)) : RenestedAll ts ts :=
  List.forall₂_same.mpr fun t _ => .refl t

theorem renestedAll_symm (ts us : List (Expr α)) (h : RenestedAll ts us) : RenestedAll us ts :=
  (h.imp fun _ _ => Renested.symm).flip

theorem renestedAll_trans (ts us ws : List (Expr α)) (h : RenestedAll ts us)
    (h' : RenestedAll us ws) : RenestedAll ts ws := by
  have htrans (t u w : Expr α) (htu : t.Renested u) (huw : u.Renested w) : t.Renested w := htu.trans huw
  exact forall₂_comp htrans h h'

theorem renested_congruence : TreeCongruence (Renested (α := α)) where
  refl := .refl
  add := .add
  mul := .mul
  sin := .sin
  cos := .cos
  asVar?_eq := Renested.asVar?_eq

/-! ### Trees with the same terms -/

theorem renested_regroups : Regroups (Renested (α := α)) .add where
  refl := .refl
  symm := .symm
  trans := .trans
  congr := .add
  assoc := .assoc

theorem renested_of_terms_eq {a b : Expr α} (h : a.terms = b.terms) : a.Renested b := by
  apply renested_regroups.related_of_terms
  rw [h]
  exact renestedAll_refl b.terms

/-! ### The rules -/

section PowerRule

variable [Zero α] [Add α] [Literal α] {γ : Type} [Count γ]

/-- A product has the tally of its re-nestings: its sums are refused, with a text that does not tell them apart. -/
theorem Renested.ofProduct_eq {a b : Expr α} (h : a.Renested b) :
    (FactorTally.ofProduct a : Except Error (FactorTally α γ)) = FactorTally.ofProduct b := by
  induction h with
  | assoc a b c => rw [FactorTally.ofProduct_add, FactorTally.ofProduct_add, (Renested.assoc a b c).text_eq]
  | refl e => rfl
  | symm _ ih => exact ih.symm
  | trans _ _ ih ih' => exact ih.trans ih'
  | add hl hr => rw [FactorTally.ofProduct_add, FactorTally.ofProduct_add, (Renested.add hl hr).text_eq]
  | mul _ _ ihl ihr => rw [FactorTally.ofProduct, FactorTally.ofProduct, ihl, ihr]
  | argument f before after h =>
    rw [FactorTally.ofProduct_call, FactorTally.ofProduct_call, (Renested.argument f before after h).text_eq]

end PowerRule

variable [Zero α] [One α] [Neg α] [Add α] [Sub α] [Mul α] [BEq α] [Literal α]
  {γ : Type} [Count γ] [Counting α γ]

theorem Renested.agree_deriveTerms (v : Var) {a b : Expr α} (h : a.Renested b) :
    Agree RenestedAll (deriveTerms v a).outcome (deriveTerms v b).outcome := by
  induction h with
  | assoc a b c =>
    apply Agree.of_eq renestedAll_refl
    simp only [outcome_deriveTerms_add]
    cases (deriveTerms v a).outcome with
    | error error => rfl
    | ok as =>
      cases (deriveTerms v b).outcome with
      | error error => rfl
      | ok bs =>
        cases (deriveTerms v c).outcome with
        | error error => rfl
        | ok cs => exact congrArg Except.ok (List.append_assoc as bs cs)
  | refl e => exact .of_eq renestedAll_refl rfl
  | symm _ ih => exact ih.symm renestedAll_symm
  | trans _ _ ih ih' => exact ih.trans renestedAll_trans ih'
  | add _ _ ihl ihr =>
    rw [outcome_deriveTerms_add, outcome_deriveTerms_add]
    exact ihl.bind fun _ _ hls => ihr.bind fun _ _ hrs => .ok (List.rel_append hls hrs)
  | mul hl hr =>
    apply Agree.of_eq renestedAll_refl
    rw [outcome_deriveTerms_mul, outcome_deriveTerms_mul, powerRule, powerRule,
      (Renested.mul hl hr).ofProduct_eq]
  | @argument f before after a b h ih =>
    by_cases hf : f = .pow
    · subst hf
      apply Agree.of_eq renestedAll_refl
      rw [outcome_deriveTerms_pow, outcome_deriveTerms_pow]
    by_cases hargs : (before ++ a :: after).length = f.arity
    · rw [List.length_append, List.length_cons, Func.arity_of_ne_pow hf] at hargs
      obtain rfl : before = [] := List.length_eq_zero_iff.mp (by omega)
      obtain rfl : after = [] := List.length_eq_zero_iff.mp (by omega)
      cases f with
      | pow => exact absurd rfl hf
      | sin => exact renested_congruence.agree_deriveTerms_sin h ih
      | cos => exact renested_congruence.agree_deriveTerms_cos h ih
    · have hlength : (before ++ b :: after).length = (before ++ a :: after).length := by simp
      apply Agree.of_eq renestedAll_refl
      rw [outcome_deriveTerms_misfit v hf hargs,
        outcome_deriveTerms_misfit v hf (hlength ▸ hargs), hlength]

theorem Renested.agree_deriveSum (v : Var) {a b : Expr α} (h : a.Renested b) :
    Agree Renested (deriveSum v a).outcome (deriveSum v b).outcome := by
  rw [deriveSum, deriveSum, Traced.outcome_bind, Traced.outcome_bind]
  exact (h.agree_deriveTerms v).bind fun _ _ hts => renested_congruence.agree_sum hts

end Expr

namespace Limits

variable {α : Type} [Zero α] [One α] [Neg α] [Add α] [Sub α] [Mul α] [BEq α] [Literal α]
  {γ : Type} [Count γ] [Counting α γ]

theorem agree_derive {limits : Limits} (v : Var) {a b : Expr α} (h : a.Renested b)
    (ha : limits.check a = .ok ()) (hb : limits.check b = .ok ()) :
    Error.Agree Expr.Renested (limits.derive v a).outcome (limits.derive v b).outcome := by
  obtain ⟨hdepth, hnodes⟩ := check_eq_ok_iff.mp ha
  obtain ⟨hdepth', hnodes'⟩ := check_eq_ok_iff.mp hb
  rw [outcome_derive, outcome_derive, if_neg (by omega), if_neg (by omega), if_neg (by omega),
    if_neg (by omega), h.occurrences_eq]
  cases b.occurrences.find? fun w => !(w == v) with
  | some w => exact .error _
  | none => exact h.agree_deriveSum v

/-- Trees with the same terms have the same derivative: what is put together are the derivatives of the terms. -/
theorem outcome_derive_eq_of_terms_eq {limits : Limits} (v : Var) {a b : Expr α}
    (h : a.terms = b.terms) (ha : limits.check a = .ok ()) (hb : limits.check b = .ok ()) :
    (limits.derive v a).outcome = (limits.derive v b).outcome := by
  rcases Error.Agree.agree_iff.mp (agree_derive v (Expr.renested_of_terms_eq h) ha hb) with
    ⟨d, d', hd, hd', _⟩ | ⟨error, herror, herror'⟩
  · obtain ⟨hsum, hterms⟩ := terms_of_outcome_derive hd
    obtain ⟨hsum', hterms'⟩ := terms_of_outcome_derive hd'
    rw [← h] at hterms'
    have hsame : d.terms = d'.terms :=
      List.right_unique_forall₂' (fun _ _ _ ht ht' => List.singleton_inj.mp (ht.unique ht'))
        hterms hterms'
    rw [hd, hd', ← hsum, ← hsum', hsame]
  · rw [herror, herror']

/-- Differentiation does not see how the sums of a tree within the limits are nested: re-nestings of each other have derivatives that are so too or are refused with the same error, and they have the very same derivative when they differ in the sums at the top alone. -/
theorem derive_renested {limits : Limits} {a b : Expr α} (h : a.Renested b) (v : Var)
    (ha : limits.check a = .ok ()) (hb : limits.check b = .ok ()) :
    ((∃ d d', (limits.derive v a).outcome = .ok d ∧ (limits.derive v b).outcome = .ok d' ∧
          d.Renested d') ∨
        ∃ error, (limits.derive v a).outcome = .error error ∧
          (limits.derive v b).outcome = .error error) ∧
      (a.terms = b.terms → (limits.derive v a).outcome = (limits.derive v b).outcome) :=
  ⟨Error.Agree.agree_iff.mp (agree_derive v h ha hb),
    fun hterms => outcome_derive_eq_of_terms_eq v hterms ha hb⟩

/-- The tree `(x + 1) + sin ((x + x) + 1)` nested in another way throughout, and at the top alone. -/
theorem derive_renested_sum_add_sin :
    let x : Var := ⟨0, "x"⟩
    let inner : Expr Binary64 := .add (.add (.var x) (.var x)) (.num 1)
    let inner' : Expr Binary64 := .add (.var x) (.add (.var x) (.num 1))
    let e : Expr Binary64 := .add (.add (.var x) (.num 1)) inner.sin
    let throughout : Expr Binary64 := .add (.var x) (.add (.num 1) inner'.sin)
    let outside : Expr Binary64 := .add (.var x) (.add (.num 1) inner.sin)
    (e.Renested throughout ∧ check {} e = .ok () ∧ check {} throughout = .ok () ∧
      ((∃ d d', (derive {} x e).outcome = .ok d ∧ (derive {} x throughout).outcome = .ok d' ∧
          d.Renested d') ∨
        ∃ error, (derive {} x e).outcome = .error error ∧
          (derive {} x throughout).outcome = .error error)) ∧
      e.Renested outside ∧ check {} outside = .ok () ∧ e.terms = outside.terms ∧
        (derive {} x e).outcome = (derive {} x outside).outcome := by
  intro x inner inner' e throughout outside
  have houtside : e.Renested outside := .assoc (.var x) (.num 1) inner.sin
  have hthroughout : e.Renested throughout :=
    houtside.trans (.add (.refl _) (.add (.refl _) (Expr.Renested.assoc _ _ _).sin))
  have he : check {} e = .ok () := check_eq_ok_iff.mpr ⟨by decide, by decide⟩
  have hcheck : check {} throughout = .ok () := check_eq_ok_iff.mpr ⟨by decide, by decide⟩
  have hcheck' : check {} outside = .ok () := check_eq_ok_iff.mpr ⟨by decide, by decide⟩
  have hterms : e.terms = outside.terms := rfl
  exact ⟨⟨hthroughout, he, hcheck, (derive_renested hthroughout x he hcheck).1⟩,
    houtside, hcheck', hterms, (derive_renested houtside x he hcheck').2 hterms⟩

end Limits

end Univariate
