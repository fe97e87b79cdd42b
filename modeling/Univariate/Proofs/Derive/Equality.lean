import Univariate.Proofs.Derive.Congruence
import Univariate.Proofs.Derive.Refusal
import Univariate.Proofs.Expr.Equality

/-!
# Equal trees have equal derivatives

Equality of trees identifies the two zeros and refuses a number that is not equal to itself, so trees that are equal need not be the same, and a tree need not be equal to itself. Differentiation cannot tell equal trees apart: the sum of the numbers of a product, the test of that sum against zero and the numbers that are written into the text of an error all respect the equality, and so do the limits and the variables. What holds of all scalars is stated for any relation of numbers with these properties; floating-point numbers that are alike have them.
-/

namespace Univariate

/-- Relations of numbers that arithmetic, the comparison with zero and the writing of numbers respect. -/
structure NumberCongruence {α : Type} [Zero α] [Add α] [Mul α] [BEq α] [Literal α]
    (R : α → α → Prop) : Prop where
  refl (n : α) : R n n
  add {m m' n n' : α} : R m m' → R n n' → R (m + n) (m' + n')
  mul {m m' n n' : α} : R m m' → R n n' → R (m * n) (m' * n')
  beq_zero_eq {m n : α} : R m n → (m == 0) = (n == 0)
  form_eq {m n : α} : R m n → Literal.form m = Literal.form n
  isNegative_eq {m n : α} : R m n → Literal.isNegative m = Literal.isNegative n

theorem Binary64.alike_congruence : NumberCongruence Binary64.Alike where
  refl := .refl
  add := .add
  mul := .mul
  beq_zero_eq := Alike.beq_zero_eq
  form_eq := Alike.form_eq
  isNegative_eq := Alike.isNegative_eq

open Error (Agree)

variable {α : Type} {R : α → α → Prop}

theorem Expr.similar_congruence (hR : ∀ n, R n n) : Expr.TreeCongruence (Expr.Similar R Eq) where
  refl := .refl hR fun _ => rfl
  add := .add
  mul := .mul
  sin h := .call .sin (.cons h .nil)
  cos h := .call .cos (.cons h .nil)
  asVar?_eq := Expr.Similar.asVar?_eq

variable [Zero α] [Add α] [Mul α] [BEq α] [Literal α]

def FactorTally.Similar {γ : Type} (R : α → α → Prop) (s t : FactorTally α γ) : Prop :=
  R s.constantSum t.constantSum ∧ s.variableCount = t.variableCount

namespace Expr

variable {a b : Expr α} {γ : Type}

/-! ### Products -/

theorem Similar.agree_ofProduct [Count γ] (hR : NumberCongruence R) (h : Similar R Eq a b) :
    Agree (FactorTally.Similar (γ := γ) R) (FactorTally.ofProduct a) (FactorTally.ofProduct b) := by
  -- A factor that is refused is written into the error.
  have htext {a b : Expr α} (h : Similar R Eq a b) : a.text = b.text :=
    h.text_eq (fun _ _ => hR.form_eq) fun _ _ => hR.isNegative_eq
  induction h using Similar.induction with
  | num h => exact .ok ⟨h, rfl⟩
  | var _ => exact .ok ⟨hR.refl 0, rfl⟩
  | add hl hr _ _ =>
    rw [FactorTally.ofProduct_add, FactorTally.ofProduct_add, htext (.add hl hr)]
    exact .error _
  | mul _ _ ihl ihr =>
    rw [FactorTally.ofProduct, FactorTally.ofProduct]
    refine ihl.bind fun s s' hs => ihr.bind fun t t' ht => .ok ⟨hR.add hs.1 ht.1, ?_⟩
    exact congrArg₂ Count.add hs.2 ht.2
  | call f hargs _ =>
    rw [FactorTally.ofProduct_call, FactorTally.ofProduct_call, htext (.call f hargs)]
    exact .error _

variable [One α] [Sub α] [Counting α γ]

theorem similar_powerDerivative (hR : NumberCongruence R) (v : Var) {s t : FactorTally α γ}
    (h : s.Similar R t) : Similar R Eq (powerDerivative v s) (powerDerivative v t) := by
  obtain ⟨hsum, hcount⟩ := h
  have hpower : s.power = t.power := by rw [FactorTally.power, FactorTally.power, hcount]
  have hcoefficient : R s.coefficient t.coefficient := by
    rw [FactorTally.coefficient, FactorTally.coefficient, hR.beq_zero_eq hsum]
    split
    · exact hR.refl 1
    · exact hsum
  rw [powerDerivative, powerDerivative, hpower]
  exact .mul (.num (hR.mul hcoefficient (hR.refl _))) (.refl hR.refl (fun _ => rfl) _)

/-! ### Terms -/

variable [Neg α] [Count γ]

theorem Similar.agree_deriveTerms (hR : NumberCongruence R) (v : Var) (h : Similar R Eq a b) :
    Agree (List.Forall₂ (Similar R Eq)) (deriveTerms v a).outcome (deriveTerms v b).outcome := by
  have hcongruence := similar_congruence hR.refl
  induction h using Similar.induction with
  | num _ => exact .ok (.cons (hcongruence.refl _) .nil)
  | var _ => exact .ok (.cons (hcongruence.refl _) .nil)
  | add _ _ ihl ihr =>
    rw [outcome_deriveTerms_add, outcome_deriveTerms_add]
    exact ihl.bind fun _ _ hls => ihr.bind fun _ _ hrs => .ok (List.rel_append hls hrs)
  | mul hl hr _ _ =>
    rw [outcome_deriveTerms_mul, outcome_deriveTerms_mul, powerRule, powerRule]
    have htallies := (Similar.mul hl hr).agree_ofProduct (γ := γ) hR
    have hrule := htallies.bind fun _ _ hst => .ok (similar_powerDerivative hR v hst)
    exact hrule.bind fun _ _ hd => .ok (.cons hd .nil)
  | @call f as bs hargs ih =>
    have hlength : as.length = bs.length := hargs.length_eq
    by_cases hf : f = .pow
    · subst hf
      rw [outcome_deriveTerms_pow, outcome_deriveTerms_pow]
      exact .error _
    by_cases hfit : as.length = f.arity
    · rw [Func.arity_of_ne_pow hf] at hfit
      obtain ⟨u, rfl⟩ := List.length_eq_one_iff.mp hfit
      obtain ⟨u', rfl⟩ := List.length_eq_one_iff.mp (hlength ▸ hfit)
      obtain ⟨hu, hinner⟩ := (List.forall₂_cons.mp ih).1
      cases f with
      | pow => exact absurd rfl hf
      | sin => exact hcongruence.agree_deriveTerms_sin hu hinner
      | cos => exact hcongruence.agree_deriveTerms_cos hu hinner
    · rw [outcome_deriveTerms_misfit v hf hfit, outcome_deriveTerms_misfit v hf (hlength ▸ hfit),
        hlength]
      exact .error _

theorem Similar.agree_deriveSum (hR : NumberCongruence R) (v : Var) (h : Similar R Eq a b) :
    Agree (Similar R Eq) (deriveSum v a).outcome (deriveSum v b).outcome := by
  rw [deriveSum, deriveSum, Traced.outcome_bind, Traced.outcome_bind]
  exact (h.agree_deriveTerms hR v).bind fun _ _ hts => (similar_congruence hR.refl).agree_sum hts

end Expr

namespace Limits

variable [One α] [Sub α] [Neg α] {a b : Expr α}
  {γ : Type} [Count γ] [Counting α γ]

theorem agree_derive_of_similar (hR : NumberCongruence R) (limits : Limits) (v : Var)
    (h : Expr.Similar R Eq a b) :
    Agree (Expr.Similar R Eq) (limits.derive v a).outcome (limits.derive v b).outcome := by
  rw [outcome_derive, outcome_derive, h.maxDepth_eq, h.nodeCount_eq, h.occurrences_eq]
  split
  · exact .error _
  · split
    · exact .error _
    · split
      · exact .error _
      · exact h.agree_deriveSum hR v

/-- Equality of trees is symmetric and transitive, with the numbers of a tree to decide whether it is equal to itself. Equal trees in which a variable always has the same name have the same size and the same variables, and within any limits they have equal derivatives, as far as these are equal to themselves, or fail with the same error. -/
theorem derive_respects_equality :
    (∀ a b : Expr Binary64, (a == b) = true → (b == a) = true) ∧
      (∀ a b c : Expr Binary64, (a == b) = true → (b == c) = true → (a == c) = true) ∧
      (∀ e : Expr Binary64, (e == e) = true ↔ ∀ n ∈ e.numbers, n.isNaN = false) ∧
      ∀ a b : Expr Binary64, (a == b) = true →
        (∀ v ∈ a.occurrences, ∀ w ∈ b.occurrences, (v == w) = true → v.name = w.name) →
        a.nodeCount = b.nodeCount ∧ a.maxDepth = b.maxDepth ∧ a.vars = b.vars ∧
          ∀ (limits : Limits) (v : Var),
            (∃ d d', (limits.derive v a).outcome = .ok d ∧ (limits.derive v b).outcome = .ok d' ∧
                ((∀ n ∈ d.numbers, n.isNaN = false) → (d == d') = true)) ∨
              ∃ error, (limits.derive v a).outcome = .error error ∧
                (limits.derive v b).outcome = .error error := by
  refine ⟨fun _ _ => PartialEquivBEq.symm, fun _ _ _ => PartialEquivBEq.trans, ?_, ?_⟩
  · intro e
    simp only [Expr.beq_self_iff, Binary64.beq_self_iff]
  · intro a b h hnames
    have hsimilar := Expr.similar_alike_of_beq h hnames
    refine ⟨hsimilar.nodeCount_eq, hsimilar.maxDepth_eq, hsimilar.vars_eq, ?_⟩
    intro limits v
    rcases Agree.agree_iff.mp (agree_derive_of_similar Binary64.alike_congruence limits v hsimilar)
      with ⟨d, d', hd, hd', hdd'⟩ | herror
    · exact .inl ⟨d, d', hd, hd', hdd'.beq_of_alike⟩
    · exact .inr herror

/-- The trees `0 + sin (0 * x)` and `-0 + sin (-0 * x)`, with zeros of either sign. -/
theorem derive_respects_equality_signed_zeros :
    let x : Var := ⟨0, "x"⟩
    let a : Expr Binary64 := .add (.num 0) (Expr.mul (.num 0) (.var x)).sin
    let b : Expr Binary64 := .add (.num (-0)) (Expr.mul (.num (-0)) (.var x)).sin
    (a == b) = true ∧ (b == a) = true ∧ (a == a) = true ∧
      (∀ v ∈ a.occurrences, ∀ w ∈ b.occurrences, (v == w) = true → v.name = w.name) ∧
      a.nodeCount = b.nodeCount ∧ a.maxDepth = b.maxDepth ∧ a.vars = b.vars ∧
        ((∃ d d', (derive {} x a).outcome = .ok d ∧ (derive {} x b).outcome = .ok d' ∧
            ((∀ n ∈ d.numbers, n.isNaN = false) → (d == d') = true)) ∨
          ∃ error, (derive {} x a).outcome = .error error ∧
            (derive {} x b).outcome = .error error) := by
  intro x a b
  obtain ⟨hsymm, htrans, _, hequal⟩ := derive_respects_equality
  have hab : (a == b) = true := by decide
  have hnames : ∀ v ∈ a.occurrences, ∀ w ∈ b.occurrences, (v == w) = true → v.name = w.name := by
    intro v hv w hw _
    obtain rfl : v = x := List.mem_singleton.mp hv
    obtain rfl : w = x := List.mem_singleton.mp hw
    rfl
  obtain ⟨hnodes, hdepth, hvars, hderive⟩ := hequal a b hab hnames
  exact ⟨hab, hsymm a b hab, htrans a b a hab (hsymm a b hab), hnames, hnodes, hdepth, hvars,
    hderive {} x⟩

end Limits

end Univariate
