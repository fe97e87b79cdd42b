import Univariate.Derive.Repeated
import Univariate.Proofs.Derive.Compiles
import Univariate.Proofs.Derive.Terms
import Univariate.Scalar.Text

/-!
# How often a tree can be differentiated

The rules leave four kinds of terms behind: zero for a number, one for a variable, the cosine of a variable for its sine, and for everything else a product with a call in it, which no rule covers. So a term can be followed through the derivatives by its kind. Numbers last, the variable becomes one, a bare sine becomes a cosine and then a product, and the derivative after a product fails with the shape of one of its factors.
-/

namespace Univariate

/-! ### Lists related one by one -/

theorem forall_mem_iff_of_forall₂ {β γ : Type} {R : β → γ → Prop} {P : β → Prop} {Q : γ → Prop}
    {bs : List β} {cs : List γ} (h : List.Forall₂ R bs cs) (hR : ∀ b c, R b c → (P b ↔ Q c)) :
    (∀ b ∈ bs, P b) ↔ ∀ c ∈ cs, Q c := by
  induction h with
  | nil => simp
  | cons hbc _ ih => rw [List.forall_mem_cons, List.forall_mem_cons, hR _ _ hbc, ih]

theorem forall_mem_of_forall₂ {β γ : Type} {R : β → γ → Prop} {Q : γ → Prop} {bs : List β}
    {cs : List γ} (h : List.Forall₂ R bs cs) (hR : ∀ b c, R b c → Q c) : ∀ c ∈ cs, Q c :=
  (forall_mem_iff_of_forall₂ h fun b c hbc => iff_of_true trivial (hR b c hbc)).mp fun _ _ => trivial

namespace Expr

variable {α : Type}

/-! ### Offences of products -/

section Offence

variable [Literal α]

theorem exists_term_of_firstOffence? {e : Expr α} {error : Error} (h : e.firstOffence? = some error) :
    ∃ t ∈ e.terms, t.firstOffence? = some error := by
  induction e with
  | add l r ihl ihr =>
    rw [firstOffence?_add] at h
    rcases Option.or_eq_some_iff.mp h with hl | ⟨_, hr⟩
    · obtain ⟨t, ht, herror⟩ := ihl hl
      exact ⟨t, List.mem_append_left _ ht, herror⟩
    · obtain ⟨t, ht, herror⟩ := ihr hr
      exact ⟨t, List.mem_append_right _ ht, herror⟩
  | _ => exact ⟨_, List.mem_singleton_self _, h⟩

theorem invalidShape_of_factor {e : Expr α} {error : Error}
    (h : e.firstOffenceAt? .factor = some error) : ∃ found, error = .invalidShape found := by
  induction e with
  | num n => simp at h
  | var w => simp at h
  | add l r _ _ =>
    rw [firstOffenceAt?, firstDefect_add] at h
    cases h
    exact ⟨_, rfl⟩
  | mul l r ihl ihr =>
    rw [firstOffenceAt?_mul] at h
    rcases Option.or_eq_some_iff.mp h with hl | ⟨_, hr⟩
    · exact ihl hl
    · exact ihr hr
  | call f args _ =>
    rw [firstOffenceAt?, firstDefect_call_of_defect _ _ _ rfl] at h
    cases h
    exact ⟨_, rfl⟩

end Offence

/-! ### The terms of a derivative -/

theorem isProduct_mul_iff {l r : Expr α} : (mul l r).IsProduct ↔ l.IsProduct ∧ r.IsProduct := by
  constructor
  · intro h
    cases h with
    | mul hl hr => exact ⟨hl, hr⟩
  · intro h
    exact .mul h.1 h.2

theorem not_isProduct_call (f : Func) (args : List (Expr α)) : ¬ (call f args).IsProduct := by
  intro h
  cases h

/-- What a term has to be so that its derivative can be differentiated `n` times. -/
def Lasts (v : Var) : (n : Nat) → Expr α → Prop
  | 0, t => t.boundBy v = true ∧ t.IsDifferentiable
  | 1, t => t.isTwiceDerivableTerm v = true
  | _ + 2, t => t.isLinearTerm v = true

variable {v : Var} {t s : Expr α} {n : Nat}

theorem Lasts.of_isLinearTerm (h : t.isLinearTerm v = true) (n : Nat) : t.Lasts v n := by
  match n with
  | 0 =>
    rcases isLinearTerm_iff.mp h with ⟨c, rfl⟩ | ⟨w, rfl, hw⟩
    · exact ⟨rfl, .num c⟩
    · exact ⟨by rw [boundBy_var, hw], .var w⟩
  | 1 => exact isTwiceDerivableTerm_iff.mpr (.inl h)
  | _ + 2 => exact h

theorem Lasts.zero (h : t.Lasts v n) : t.Lasts v 0 := by
  match n with
  | 0 => exact h
  | 1 =>
    rcases isTwiceDerivableTerm_iff.mp h with hlinear | ⟨w, rfl, hw⟩
    · exact .of_isLinearTerm hlinear 0
    · exact ⟨by rw [boundBy_sin, boundBy_var, hw], .sin (.var w)⟩
  | _ + 2 => exact .of_isLinearTerm h 0

theorem Lasts.isTwiceDerivableTerm (h : t.Lasts v (n + 1)) : t.isTwiceDerivableTerm v = true := by
  match n with
  | 0 => exact h
  | _ + 1 => exact isTwiceDerivableTerm_iff.mpr (.inl h)

theorem not_lasts_mul {l r : Expr α} (h : ¬ (mul l r).IsProduct) (n : Nat) : ¬ (mul l r).Lasts v n := by
  intro hlasts
  cases hlasts.zero.2 with
  | mul hl hr => exact h (.mul hl hr)

variable [Zero α] [One α]

/-- The four kinds of terms that the rules leave behind. -/
inductive TermDerivative (v : Var) : Expr α → Expr α → Prop where
  | num (n : α) : TermDerivative v (.num n) (.num 0)
  | var (w : Var) : TermDerivative v (.var w) (.num 1)
  | sinVar (w : Var) : TermDerivative v (sin (.var w)) (cos (.var w))
  | product {t l r : Expr α} : t.isTwiceDerivableTerm v = false → ¬ (mul l r).IsProduct →
    TermDerivative v t (.mul l r)

/-- A term can be differentiated once more than its derivative. -/
theorem TermDerivative.lasts_iff (h : TermDerivative v t s) (hbound : t.boundBy v = true) (n : Nat) :
    s.Lasts v n ↔ t.Lasts v (n + 1) := by
  cases h with
  | num c => exact iff_of_true (.of_isLinearTerm rfl n) (.of_isLinearTerm rfl (n + 1))
  | var w =>
    rw [boundBy_var] at hbound
    have hlinear : (Expr.var w : Expr α).isLinearTerm v = true := hbound
    exact iff_of_true (.of_isLinearTerm rfl n) (.of_isLinearTerm hlinear (n + 1))
  | sinVar w =>
    rw [boundBy_sin, boundBy_var] at hbound
    match n with
    | 0 =>
      have hcos : (cos (.var w) : Expr α).boundBy v = true := by rw [boundBy_cos, boundBy_var, hbound]
      exact iff_of_true ⟨hcos, .cos (.var w)⟩ hbound
    | 1 => exact iff_of_false Bool.false_ne_true Bool.false_ne_true
    | _ + 2 => exact iff_of_false Bool.false_ne_true Bool.false_ne_true
  | product ht hproduct =>
    apply iff_of_false (not_lasts_mul hproduct n)
    intro hlasts
    rw [hlasts.isTwiceDerivableTerm] at ht
    cases ht

/-- What is refused among the terms of a derivative is refused for its shape. -/
theorem TermDerivative.invalidShape [Literal α] (h : TermDerivative v t s) {error : Error}
    (herror : s.firstOffence? = some error) : ∃ found, error = .invalidShape found := by
  cases h with
  | num c => cases herror
  | var w => cases herror
  | sinVar w => cases herror
  | product _ _ =>
    rw [firstOffence?_mul] at herror
    exact invalidShape_of_factor herror

variable [Neg α] [Add α] [Sub α] [Mul α] [BEq α] [Literal α]
  {γ : Type} [Count γ] [Counting α γ]

theorem DerivesTo.termDerivative (h : DerivesTo v t [s]) : TermDerivative v t s := by
  -- The derivation of a sum has at least two terms.
  generalize hts : [s] = ts at h
  cases h with
  | num c =>
    cases hts
    exact .num c
  | var w =>
    cases hts
    exact .var w
  | add hl hr =>
    rcases List.append_eq_singleton_iff.mp hts.symm with ⟨hnil, _⟩ | ⟨_, hnil⟩
    · exact absurd hnil hl.ne_nil
    · exact absurd hnil hr.ne_nil
  | mul _ =>
    cases hts
    exact .product rfl fun h => not_isProduct_call _ _ (isProduct_mul_iff.mp h).2
  | sinVar w =>
    cases hts
    exact .sinVar w
  | cosVar w =>
    cases hts
    exact .product rfl fun h => not_isProduct_call _ _ (isProduct_mul_iff.mp h).2
  | @sin u d us hu _ _ =>
    cases hts
    have ht : (Expr.sin u).isTwiceDerivableTerm v = false := by
      cases u with
      | var w => cases hu
      | _ => rfl
    exact .product ht fun h => not_isProduct_call _ _ (isProduct_mul_iff.mp h).1
  | cos _ _ _ =>
    cases hts
    exact .product rfl fun h =>
      not_isProduct_call _ _ (isProduct_mul_iff.mp (isProduct_mul_iff.mp h).1).2

end Expr

namespace Limits

variable {α : Type} [Zero α] [One α] [Neg α] [Add α] [Sub α] [Mul α] [BEq α] [Literal α]
  {γ : Type} [Count γ] [Counting α γ]
  {limits : Limits} {v : Var} {e d : Expr α}

theorem termDerivatives (h : (limits.derive v e).outcome = .ok d) :
    List.Forall₂ (fun t s => t.boundBy v = true ∧ Expr.TermDerivative v t s) e.terms d.terms := by
  obtain ⟨_, _, hbound, _⟩ := outcome_derive_eq_ok_iff.mp h
  rw [List.forall₂_and_left]
  exact ⟨Expr.boundBy_iff_terms.mp hbound,
    (terms_of_outcome_derive h).2.imp fun _ _ => Expr.DerivesTo.termDerivative⟩

/-! ### Derivatives of any order -/

theorem deriveTimes_succ (limits : Limits) (v : Var) (n : Nat) (e : Expr α) :
    limits.deriveTimes v (n + 1) e =
      limits.deriveTimes v n e >>= fun d => (limits.derive v d).outcome := rfl

/-- The first derivative can be taken before the others as well as the last after them. -/
theorem deriveTimes_succ' (limits : Limits) (v : Var) (n : Nat) (e : Expr α) :
    limits.deriveTimes v (n + 1) e = (limits.derive v e).outcome >>= limits.deriveTimes v n := by
  induction n with
  | zero =>
    rw [deriveTimes_succ]
    cases h : (limits.derive v e).outcome with
    | ok d => exact h
    | error error => exact h
  | succ n ih =>
    rw [deriveTimes_succ, ih]
    cases (limits.derive v e).outcome <;> rfl

theorem AdmitsOrder.derive {n : Nat} (h : limits.AdmitsOrder v e (n + 1))
    (hd : (limits.derive v e).outcome = .ok d) : limits.AdmitsOrder v d n := by
  intro k hk c hc
  apply h (k + 1) (Nat.succ_lt_succ hk)
  rw [deriveTimes_succ', hd]
  exact hc

theorem AdmitsOrder.check {n : Nat} (h : limits.AdmitsOrder v e (n + 1)) : limits.check e = .ok () :=
  h 0 (Nat.succ_pos n) e rfl

theorem exists_deriveTimes_iff {n : Nat} (h : limits.AdmitsOrder v e (n + 1)) :
    (∃ d, limits.deriveTimes v (n + 1) e = .ok d) ↔ ∀ t ∈ e.terms, t.Lasts v n := by
  induction n generalizing e with
  | zero => exact exists_outcome_derive_iff h.check
  | succ n ih =>
    have hfirst : (∀ t ∈ e.terms, t.Lasts v (n + 1)) → ∃ d, (limits.derive v e).outcome = .ok d :=
      fun hlasts => (exists_outcome_derive_iff h.check).mpr fun t ht => (hlasts t ht).zero
    rw [deriveTimes_succ']
    cases hd : (limits.derive v e).outcome with
    | ok d =>
      have hterms : (∀ t ∈ e.terms, t.Lasts v (n + 1)) ↔ ∀ s ∈ d.terms, s.Lasts v n :=
        forall_mem_iff_of_forall₂ (termDerivatives hd) fun t s hts => (hts.2.lasts_iff hts.1 n).symm
      rw [hterms]
      exact ih (h.derive hd)
    | error error =>
      refine iff_of_false ?_ ?_
      · intro hc
        obtain ⟨c, hc⟩ := hc
        cases hc
      · intro hlasts
        obtain ⟨d, hd'⟩ := hfirst hlasts
        rw [hd] at hd'
        cases hd'

/-- A tree that is the derivative of another within the limits is refused for its shape alone. -/
theorem invalidShape_of_derive_derive (h : (limits.derive v e).outcome = .ok d)
    (hcheck : limits.check d = .ok ()) {error : Error}
    (herror : (limits.derive v d).outcome = .error error) : ∃ found, error = .invalidShape found := by
  obtain ⟨hdepth, hnodes⟩ := check_eq_ok_iff.mp hcheck
  obtain ⟨hbound, _⟩ := derive_wellFormed h
  cases hoffence : d.firstOffence? with
  | none =>
    have haccepted : limits.refusal? v d = none := refusal?_eq_none_iff.mpr
      ⟨hdepth, hnodes, hbound, Expr.isDifferentiable_of_no_offence hoffence⟩
    obtain ⟨c, hc⟩ := exists_outcome_derive haccepted
    rw [herror] at hc
    cases hc
  | some offence =>
    have hrefused : limits.refusal? v d = some offence := by
      rw [refusal?, if_neg (by omega), if_neg (by omega),
        Expr.find?_occurrences_eq_none_iff.mpr hbound]
      exact hoffence
    have hsame := outcome_derive_of_refusal hrefused
    rw [herror] at hsame
    cases hsame
    obtain ⟨s, hs, hsoffence⟩ := Expr.exists_term_of_firstOffence? hoffence
    exact forall_mem_of_forall₂ (termDerivatives h) (fun _ _ hts => hts.2.invalidShape) s hs hsoffence

/-! ### Numbers -/

theorem terms_of_derive_linear (hlinear : ∀ t ∈ e.terms, t.isLinearTerm v = true)
    (hd : (limits.derive v e).outcome = .ok d) :
    d.terms.length = e.terms.length ∧ ∀ s ∈ d.terms, ∃ c, s = .num c := by
  have hkinds := (List.forall₂_and_left _ _).mpr ⟨hlinear, termDerivatives hd⟩
  refine ⟨hkinds.length_eq.symm, forall_mem_of_forall₂ hkinds ?_⟩
  intro t s hts
  cases hts.2.2 with
  | num c => exact ⟨0, rfl⟩
  | var w => exact ⟨1, rfl⟩
  | sinVar w => cases hts.1
  | product ht _ =>
    rw [Expr.isTwiceDerivableTerm_iff.mpr (.inl hts.1)] at ht
    cases ht

theorem terms_of_derive_numbers (hnumbers : ∀ t ∈ e.terms, ∃ c, t = .num c)
    (hd : (limits.derive v e).outcome = .ok d) :
    d.terms = List.replicate e.terms.length (.num 0) := by
  have hkinds := (List.forall₂_and_left _ _).mpr ⟨hnumbers, (terms_of_outcome_derive hd).2⟩
  rw [List.eq_replicate_iff]
  refine ⟨hkinds.length_eq.symm, forall_mem_of_forall₂ hkinds ?_⟩
  intro t s hts
  obtain ⟨⟨c, rfl⟩, hderives⟩ := hts
  exact List.singleton_inj.mp (hderives.unique (.num c))

theorem terms_of_deriveTimes_linear (hlinear : ∀ t ∈ e.terms, t.isLinearTerm v = true) {n : Nat}
    (hd : limits.deriveTimes v (n + 1) e = .ok d) :
    d.terms.length = e.terms.length ∧ ∀ s ∈ d.terms, ∃ c, s = .num c := by
  induction n generalizing d with
  | zero => exact terms_of_derive_linear hlinear hd
  | succ n ih =>
    rw [deriveTimes_succ, Error.bind_eq_ok_iff] at hd
    obtain ⟨c, hc, hd⟩ := hd
    obtain ⟨hlength, hnumbers⟩ := ih hc
    have hclinear : ∀ s ∈ c.terms, s.isLinearTerm v = true := fun s hs =>
      Expr.isLinearTerm_iff.mpr (.inl (hnumbers s hs))
    obtain ⟨hdlength, hdnumbers⟩ := terms_of_derive_linear hclinear hd
    exact ⟨hdlength.trans hlength, hdnumbers⟩

theorem sum_of_deriveTimes_linear (hlinear : ∀ t ∈ e.terms, t.isLinearTerm v = true) {n : Nat}
    (hd : limits.deriveTimes v (n + 2) e = .ok d) :
    Expr.sum (List.replicate e.terms.length (.num 0)) = .ok d := by
  rw [deriveTimes_succ, Error.bind_eq_ok_iff] at hd
  obtain ⟨c, hc, hd⟩ := hd
  obtain ⟨hlength, hnumbers⟩ := terms_of_deriveTimes_linear hlinear hc
  rw [← hlength, ← terms_of_derive_numbers hnumbers hd]
  exact (terms_of_outcome_derive hd).1

/-! ### How often -/

theorem AdmitsOrder.succ {n : Nat} (h : limits.AdmitsOrder v e n)
    (hd : limits.deriveTimes v n e = .ok d) (hcheck : limits.check d = .ok ()) :
    limits.AdmitsOrder v e (n + 1) := by
  intro k hk c hc
  rcases Nat.lt_succ_iff_lt_or_eq.mp hk with hlt | rfl
  · exact h k hlt c hc
  · rw [hd] at hc
    obtain rfl := Except.ok.inj hc
    exact hcheck

theorem AdmitsOrder.of_deriveTimes {n : Nat} (h : limits.deriveTimes v n e = .ok d) :
    limits.AdmitsOrder v e n := by
  induction n generalizing d with
  | zero =>
    intro k hk
    exact absurd hk (Nat.not_lt_zero k)
  | succ n ih =>
    rw [deriveTimes_succ, Error.bind_eq_ok_iff] at h
    obtain ⟨c, hc, hd⟩ := h
    obtain ⟨hdepth, hnodes, _⟩ := outcome_derive_eq_ok_iff.mp hd
    exact (ih hc).succ hc (check_eq_ok_iff.mpr ⟨hdepth, hnodes⟩)

/-- Within the limits a tree has a second derivative exactly when each of its terms is a number, the variable or the sine of the variable, and one of any higher order exactly when each is a number or the variable; that derivative is a sum of zeros. Where the derivatives end after the first or later, the reason is a shape. -/
theorem derive_repeatedly (limits : Limits) (v : Var) (e : Expr α) :
    (limits.AdmitsOrder v e 2 →
        ((∃ d, limits.deriveTimes v 2 e = .ok d) ↔
          ∀ t ∈ e.terms, t.isTwiceDerivableTerm v = true)) ∧
      (∀ n, 3 ≤ n → limits.AdmitsOrder v e n →
        ((∃ d, limits.deriveTimes v n e = .ok d) ↔ ∀ t ∈ e.terms, t.isLinearTerm v = true)) ∧
      (∀ n d error, 1 ≤ n → limits.AdmitsOrder v e (n + 1) → limits.deriveTimes v n e = .ok d →
        limits.deriveTimes v (n + 1) e = .error error → ∃ found, error = .invalidShape found) ∧
      ∀ n d, 3 ≤ n → limits.deriveTimes v n e = .ok d →
        Expr.sum (List.replicate e.terms.length (.num 0)) = .ok d := by
  refine ⟨?_, ?_, ?_, ?_⟩
  · intro h
    exact exists_deriveTimes_iff h
  · intro n hn h
    obtain ⟨m, rfl⟩ := Nat.exists_eq_add_of_le' hn
    exact exists_deriveTimes_iff h
  · intro n d error hn h hd herror
    obtain ⟨m, rfl⟩ := Nat.exists_eq_add_of_le' hn
    have hcheck : limits.check d = .ok () := h (m + 1) (Nat.lt_succ_self _) d hd
    rw [deriveTimes_succ, hd] at herror
    rw [deriveTimes_succ, Error.bind_eq_ok_iff] at hd
    obtain ⟨c, _, hc⟩ := hd
    exact invalidShape_of_derive_derive hc hcheck herror
  · intro n d hn hd
    obtain ⟨m, rfl⟩ := Nat.exists_eq_add_of_le' hn
    have hlinear : ∀ t ∈ e.terms, t.isLinearTerm v = true :=
      (exists_deriveTimes_iff (.of_deriveTimes hd)).mp ⟨d, hd⟩
    exact sum_of_deriveTimes_linear hlinear hd

/-- The tree `1 + x` has a third derivative, and `(1 + x) + sin x` has only a second. -/
theorem derive_repeatedly_affine :
    let x : Var := ⟨0, "x"⟩
    let affine : Expr Binary64 := .add (.num 1) (.var x)
    let e : Expr Binary64 := .add affine (Expr.sin (.var x))
    (AdmitsOrder {} x affine 3 ∧ ∃ d, deriveTimes {} x 3 affine = .ok d ∧
        Expr.sum (List.replicate 2 (.num 0)) = .ok d) ∧
      AdmitsOrder {} x e 2 ∧ (∃ d, deriveTimes {} x 2 e = .ok d) ∧
        AdmitsOrder {} x e 3 ∧ ∃ found, deriveTimes {} x 3 e = .error (.invalidShape found) := by
  intro x affine e
  let zeros : Expr Binary64 := .add (.num 0) (.num 0)
  let second : Expr Binary64 := .add zeros (.mul (.num (-1)) (Expr.sin (.var x)))
  have hone : (derive {} x affine).outcome = .ok (.add (.num 0) (.num 1)) :=
    outcome_derive_eq_ok_iff.mpr ⟨by decide, by decide, by decide, _, .add (.num 1) (.var x), rfl⟩
  have hzeros : (derive {} x (.add (.num 0) (.num 1))).outcome = .ok zeros :=
    outcome_derive_eq_ok_iff.mpr ⟨by decide, by decide, by decide, _, .add (.num 0) (.num 1), rfl⟩
  have hlast : (derive {} x zeros).outcome = .ok zeros :=
    outcome_derive_eq_ok_iff.mpr ⟨by decide, by decide, by decide, _, .add (.num 0) (.num 0), rfl⟩
  have htwice : deriveTimes {} x 2 affine = .ok zeros := by
    rw [deriveTimes_succ', hone]
    exact hzeros
  have hthird : deriveTimes {} x 3 affine = .ok zeros := by
    rw [deriveTimes_succ, htwice]
    exact hlast
  have hcos : (derive {} x e).outcome = .ok (.add (.add (.num 0) (.num 1)) (Expr.cos (.var x))) :=
    outcome_derive_eq_ok_iff.mpr
      ⟨by decide, by decide, by decide, _, .add (.add (.num 1) (.var x)) (.sinVar x), rfl⟩
  have hsecond : deriveTimes {} x 2 e = .ok second := by
    rw [deriveTimes_succ', hcos]
    exact outcome_derive_eq_ok_iff.mpr
      ⟨by decide, by decide, by decide, _, .add (.add (.num 0) (.num 1)) (.cosVar x), rfl⟩
  have htwo : AdmitsOrder {} x e 2 := .of_deriveTimes hsecond
  have hthree : AdmitsOrder {} x e 3 :=
    htwo.succ hsecond (check_eq_ok_iff.mpr ⟨by decide, by decide⟩)
  obtain ⟨hiff, hlinear, herror, _⟩ := derive_repeatedly {} x e
  obtain ⟨_, _, _, hsum⟩ := derive_repeatedly {} x affine
  refine ⟨⟨.of_deriveTimes hthird, zeros, hthird, hsum 3 zeros (Nat.le_refl 3) hthird⟩, htwo, ?_,
    hthree, ?_⟩
  · rw [hiff htwo]
    decide
  · cases h : deriveTimes {} x 3 e with
    | ok d =>
      have hall := (hlinear 3 (Nat.le_refl 3) hthree).mp ⟨d, h⟩
      exact absurd (hall _ (List.mem_of_getLast? rfl)) (by decide)
    | error error =>
      obtain ⟨found, rfl⟩ := herror 2 second error (by decide) hthree hsecond h
      exact ⟨found, rfl⟩

end Limits

end Univariate
