import Univariate.Code.Listing
import Univariate.Proofs.Derive.Products
import Univariate.Proofs.Derive.Repeated
import Univariate.Proofs.Expr.Regrouping

/-!
# Products in another order

The tally of a product adds up what its leaves contribute, so the order of the leaves and the nesting matter only as far as they matter for that addition. If it is exact they do not; and with a single constant among zeros there is nothing to add, so floating-point numbers will do. The power rule reads nothing but the tally. A factor that is no product stops the tally wherever it stands.

The count of the variables starts again from zero after 32 bits, in every order alike. Repeated squaring gets there with a tree of 33 levels, whose derivative is then that of a product without variables.
-/

namespace Univariate

/-- The outcome of differentiation for a given outcome of the rules, which only counts if the tree passes the checks. -/
def Limits.afterChecks {α : Type} (limits : Limits) (v : Var) (e : Expr α)
    (outcome : Except Error (Expr α)) : Except Error (Expr α) := do
  limits.check e
  checkBound v e
  outcome

def Leaf.tree {α : Type} : Leaf α → Expr α
  | .num n => .num n
  | .var v => .var v

namespace Expr

variable {α : Type}

/-! ### The parts of a product -/

theorem isProduct_iff_factors {e : Expr α} : e.IsProduct ↔ ∀ u ∈ e.factors, u.IsProduct := by
  induction e with
  | mul l r ihl ihr => rw [isProduct_mul_iff, ihl, ihr, factors_mul, List.forall_mem_append]
  | _ => exact List.forall_mem_singleton.symm

theorem IsProduct.of_mem_postorder {e u : Expr α} (h : e.IsProduct) (hu : u ∈ e.postorder) :
    u.IsProduct := by
  induction h with
  | num n =>
    obtain rfl := List.mem_singleton.mp hu
    exact .num n
  | var v =>
    obtain rfl := List.mem_singleton.mp hu
    exact .var v
  | mul hl hr ihl ihr =>
    rw [postorder, List.mem_append, List.mem_append, List.mem_singleton] at hu
    rcases hu with (hu | hu) | rfl
    · exact ihl hu
    · exact ihr hu
    · exact .mul hl hr

theorem not_isProduct_of_node {e : Expr α}
    (h : (∃ a b, add a b ∈ e.postorder) ∨ ∃ f args, call f args ∈ e.postorder) : ¬ e.IsProduct := by
  intro hproduct
  rcases h with ⟨a, b, hadd⟩ | ⟨f, args, hcall⟩
  · cases hproduct.of_mem_postorder hadd
  · cases hproduct.of_mem_postorder hcall

theorem not_isProduct_of_factors {e u : Expr α} (h : ¬ e.IsProduct) (hfactors : u.factors.Perm e.factors) :
    ¬ u.IsProduct := by
  rw [isProduct_iff_factors] at h ⊢
  exact mt (fun hu w hw => hu w (hfactors.mem_iff.mpr hw)) h

theorem exists_mul_of_factors {e : Expr α} (h : 2 ≤ e.factors.length) : ∃ l r, e = mul l r := by
  cases e with
  | mul l r => exact ⟨l, r, rfl⟩
  | _ => exact absurd h (Nat.not_succ_le_self 1)

theorem two_le_length_factors_mul (l r : Expr α) : 2 ≤ (mul l r).factors.length := by
  have hl := List.length_pos_of_ne_nil (factors_ne_nil l)
  have hr := List.length_pos_of_ne_nil (factors_ne_nil r)
  rw [factors_mul, List.length_append]
  omega

theorem IsProduct.leaves_ne_nil {e : Expr α} (h : e.IsProduct) : e.leaves ≠ [] := by
  induction h with
  | mul _ _ ihl _ =>
    rw [leaves_mul]
    exact List.append_ne_nil_of_left_ne_nil ihl _
  | _ => exact List.cons_ne_nil _ _

theorem IsProduct.leaf_or_mul {e : Expr α} (h : e.IsProduct) :
    (∃ leaf, e.leaves = [leaf] ∧ e = leaf.tree) ∨ ∃ l r, e = Expr.mul l r ∧ 2 ≤ e.leaves.length := by
  cases h with
  | num n => exact .inl ⟨.num n, rfl, rfl⟩
  | var v => exact .inl ⟨.var v, rfl, rfl⟩
  | @mul l r hl hr =>
    have hposl := List.length_pos_of_ne_nil hl.leaves_ne_nil
    have hposr := List.length_pos_of_ne_nil hr.leaves_ne_nil
    refine .inr ⟨l, r, rfl, ?_⟩
    rw [leaves_mul, List.length_append]
    omega

theorem IsProduct.eq_or_mul {s t : Expr α} (hs : s.IsProduct) (ht : t.IsProduct)
    (hleaves : s.leaves.Perm t.leaves) : s = t ∨ (∃ l r, s = Expr.mul l r) ∧ ∃ l r, t = Expr.mul l r := by
  have hlength := hleaves.length_eq
  rcases hs.leaf_or_mul with ⟨leaf, hleaf, rfl⟩ | ⟨l, r, rfl, htwo⟩
  · rcases ht.leaf_or_mul with ⟨leaf', hleaf', rfl⟩ | ⟨l, r, rfl, htwo⟩
    · rw [hleaf, hleaf', List.singleton_perm_singleton] at hleaves
      exact .inl (congrArg Leaf.tree hleaves)
    · rw [hleaf, List.length_singleton] at hlength
      omega
  · rcases ht.leaf_or_mul with ⟨leaf', hleaf', rfl⟩ | ⟨l', r', rfl, _⟩
    · rw [hleaf', List.length_singleton] at hlength
      omega
    · exact .inr ⟨⟨l, r, rfl⟩, l', r', rfl⟩

/-! ### Tallies in any order -/

theorem numbers_eq_of_perm {s t : Expr α} (hleaves : s.leaves.Perm t.leaves)
    (hlength : s.numbers.length ≤ 1) : s.numbers = t.numbers := by
  have hperm : s.numbers.Perm t.numbers := hleaves.filterMap _
  cases hnumbers : s.numbers with
  | nil =>
    rw [hnumbers] at hperm
    exact hperm.nil_eq
  | cons c cs =>
    rw [hnumbers, List.length_cons] at hlength
    obtain rfl : cs = [] := List.length_eq_zero_iff.mp (by omega)
    rw [hnumbers] at hperm
    exact List.singleton_perm.mp hperm

/-- The variable squared `n` times over. -/
def squaring (v : Var) : ℕ → Expr α
  | 0 => .var v
  | n + 1 => .mul (squaring v n) (squaring v n)

theorem isProduct_squaring (v : Var) (n : ℕ) : (squaring v n : Expr α).IsProduct := by
  induction n with
  | zero => exact .var v
  | succ n ih => exact .mul ih ih

theorem numbers_squaring (v : Var) (n : ℕ) : (squaring v n : Expr α).numbers = [] := by
  induction n with
  | zero => rfl
  | succ n ih => rw [squaring, numbers_mul, ih, List.append_nil]

theorem length_occurrences_squaring (v : Var) (n : ℕ) :
    (squaring v n : Expr α).occurrences.length = 2 ^ n := by
  induction n with
  | zero => rfl
  | succ n ih => rw [squaring, occurrences_mul, List.length_append, ih, pow_succ, mul_two]

section Tallies

variable [Zero α] [Add α] [Literal α] {γ : Type} [Count γ]

/-- With a single constant, or with none, only zeros are added to it. -/
theorem IsProduct.ofProduct_of_single (hzero : (0 : α) + 0 = 0) {e : Expr α} (h : e.IsProduct)
    (hlength : e.numbers.length ≤ 1) (hconstant : ∀ c ∈ e.numbers, 0 + c = c ∧ c + 0 = c) :
    FactorTally.ofProduct e = .ok ⟨e.numbers.headD 0, (Count.ofNat e.occurrences.length : γ)⟩ := by
  let Adds (ns : List α) (a : α) : Prop :=
    ns.length ≤ 1 → (∀ c ∈ ns, 0 + c = c ∧ c + 0 = c) → a = ns.headD 0
  have hadd (ms ns : List α) (a b : α) (ha : Adds ms a) (hb : Adds ns b) :
      Adds (ms ++ ns) (a + b) := by
    intro hlength hconstant
    rw [List.length_append] at hlength
    rw [ha (by omega) fun c hc => hconstant c (List.mem_append_left _ hc),
      hb (by omega) fun c hc => hconstant c (List.mem_append_right _ hc)]
    cases ms with
    | nil =>
      cases ns with
      | nil => exact hzero
      | cons c ns => exact (hconstant c List.mem_cons_self).1
    | cons c ms =>
      rw [List.length_cons] at hlength
      obtain rfl : ns = [] := List.length_eq_zero_iff.mp (by omega)
      exact (hconstant c List.mem_cons_self).2
  obtain ⟨_, htally, hsum⟩ :=
    h.exists_ofProduct (γ := γ) (fun _ _ => rfl) (fun n _ _ => rfl) hadd
  rw [htally, hsum hlength hconstant]

theorem exists_invalidShape {e : Expr α} (h : ¬ e.IsProduct) :
    ∃ found, (FactorTally.ofProduct e : Except Error (FactorTally α γ)) = .error (.invalidShape found) := by
  cases hoffence : e.firstOffenceAt? .factor with
  | none => exact absurd (isProduct_of_no_offence hoffence) h
  | some error =>
    obtain ⟨found, rfl⟩ := invalidShape_of_factor hoffence
    exact ⟨found, ofProduct_of_offence hoffence⟩

theorem ofProduct_squaring (hzero : (0 : α) + 0 = 0) (v : Var) (n : ℕ) :
    FactorTally.ofProduct (squaring v n) = .ok (⟨0, Count.ofNat (2 ^ n)⟩ : FactorTally α γ) := by
  have hnumbers := numbers_squaring (α := α) v n
  have hlength : (squaring v n : Expr α).numbers.length ≤ 1 := hnumbers ▸ Nat.zero_le 1
  have hconstant : ∀ c ∈ (squaring v n : Expr α).numbers, 0 + c = c ∧ c + 0 = c :=
    hnumbers ▸ List.forall_mem_nil _
  rw [(isProduct_squaring v n).ofProduct_of_single hzero hlength hconstant, hnumbers,
    length_occurrences_squaring]
  rfl

end Tallies

/-! ### The derivative of a product -/

section Rules

variable [Zero α] [One α] [Neg α] [Add α] [Sub α] [Mul α] [BEq α] [Literal α]
  {γ : Type} [Count γ] [Counting α γ]

theorem outcome_deriveSum_mul (v : Var) (l r : Expr α) :
    (deriveSum v (mul l r)).outcome = powerRule v (mul l r) := by
  rw [deriveSum, Traced.outcome_bind, outcome_deriveTerms_mul]
  cases powerRule v (mul l r) with
  | error error => rfl
  | ok d => rfl

theorem outcome_derive_eq (limits : Limits) (v : Var) (e : Expr α) :
    (limits.derive v e).outcome = limits.afterChecks v e (deriveSum v e).outcome := by
  simp only [Limits.derive, Traced.outcome_bind, Traced.outcome_ofExcept]
  rfl

/-- Whether two trees have the same derivative, which only a check of one of the trees can withhold. -/
def SameDerivative (s t : Expr α) : Prop :=
  ∀ v, ∃ d, ∀ limits : Limits, ∀ e ∈ [s, t],
    (limits.derive v e).outcome = limits.afterChecks v e (.ok d)

theorem IsProduct.exists_outcome_deriveSum {e : Expr α} (h : e.IsProduct) (v : Var) :
    ∃ d, (deriveSum v e).outcome = .ok d := by
  have hdifferentiable : e.IsDifferentiable := by
    cases h with
    | num n => exact .num n
    | var w => exact .var w
    | mul hl hr => exact .mul hl hr
  obtain ⟨ts, hts⟩ := hdifferentiable.exists_derivesTo v
  obtain ⟨d, hd⟩ := hts.exists_sum
  exact ⟨d, outcome_deriveSum_eq_ok_iff.mpr ⟨ts, hts, hd⟩⟩

theorem IsProduct.sameDerivative {s t : Expr α} (hs : s.IsProduct) (ht : t.IsProduct)
    (hleaves : s.leaves.Perm t.leaves)
    (htally : (FactorTally.ofProduct s : Except Error (FactorTally α γ)) = FactorTally.ofProduct t) :
    SameDerivative s t := by
  intro v
  have hsame : (deriveSum v s).outcome = (deriveSum v t).outcome := by
    rcases hs.eq_or_mul ht hleaves with rfl | ⟨⟨l, r, rfl⟩, l', r', rfl⟩
    · rfl
    · rw [outcome_deriveSum_mul, outcome_deriveSum_mul, powerRule, powerRule, htally]
  obtain ⟨d, hd⟩ := hs.exists_outcome_deriveSum v
  refine ⟨d, fun limits e he => ?_⟩
  rw [outcome_derive_eq]
  rcases List.mem_pair.mp he with rfl | rfl
  · rw [hd]
  · rw [← hsame, hd]

end Rules

/-- The order of the factors of a product and their nesting do not matter to the power rule. Where addition is exact, the tally is the sum of the constants and the count of the variables; with one constant at most it is enough that a zero adds nothing to it and nothing to another zero. The variables are counted in 32 bits: as many as there are if these are fewer than `2 ^ 32`, and in general up to a multiple of that. What has a sum or a call in it is rejected in any order. -/
theorem derive_ignores_order_of_factors {α : Type} [Zero α] [One α] [Neg α] [Add α] [Sub α] [Mul α]
    [BEq α] [Literal α] [Counting α UInt32] :
    (ExactAddition α → ∀ s t : Expr α, s.IsProduct → t.IsProduct → s.leaves.Perm t.leaves →
        ∃ tally : FactorTally α, FactorTally.ofProduct s = .ok tally ∧ FactorTally.ofProduct t = .ok tally ∧
          tally.constantSum = s.numbers.sum ∧
          (tally.variableCount : ℕ) = s.occurrences.length % UInt32.size ∧ SameDerivative s t) ∧
      ((0 : α) + 0 = 0 → ∀ s t : Expr α, s.IsProduct → t.IsProduct → s.leaves.Perm t.leaves →
        s.numbers.length ≤ 1 → (∀ c ∈ s.numbers, 0 + c = c ∧ c + 0 = c) →
        ∃ tally : FactorTally α, FactorTally.ofProduct s = .ok tally ∧ FactorTally.ofProduct t = .ok tally ∧
          (tally.variableCount : ℕ) = s.occurrences.length % UInt32.size ∧
          (∀ c, s.numbers = [c] →
            tally.constantSum = c ∧ tally.coefficient = if c == 0 then 1 else c) ∧
          (s.numbers = [] →
            tally.constantSum = 0 ∧ (((0 : α) == 0) = true → tally.coefficient = 1)) ∧
          SameDerivative s t) ∧
      ∀ l r t : Expr α,
        ((∃ a b, add a b ∈ (mul l r).postorder) ∨ ∃ f args, call f args ∈ (mul l r).postorder) →
        t.factors.Perm (mul l r).factors →
        ∃ found,
          (FactorTally.ofProduct t : Except Error (FactorTally α)) = .error (.invalidShape found) ∧
          ∀ (limits : Limits) (v : Var),
            (limits.derive v t).outcome = limits.afterChecks v t (.error (.invalidShape found)) := by
  refine ⟨?_, ?_, ?_⟩
  · intro hexact s t hs ht hleaves
    have hsum : t.numbers.sum = s.numbers.sum := hexact.sum_eq_of_perm (hleaves.symm.filterMap _)
    have hcount : t.occurrences.length = s.occurrences.length := (hleaves.symm.filterMap _).length_eq
    have htally := hs.ofProduct_of_exact (γ := UInt32) hexact
    have htally' := ht.ofProduct_of_exact (γ := UInt32) hexact
    rw [hsum, hcount] at htally'
    exact ⟨_, htally, htally', rfl, UInt32.toNat_ofNat',
      hs.sameDerivative ht hleaves (htally.trans htally'.symm)⟩
  · intro hzero s t hs ht hleaves hlength hconstant
    have hnumbers := numbers_eq_of_perm hleaves hlength
    have hcount : s.occurrences.length = t.occurrences.length := (hleaves.filterMap _).length_eq
    have htally := hs.ofProduct_of_single (γ := UInt32) hzero hlength hconstant
    have htally' : FactorTally.ofProduct t =
        .ok (⟨s.numbers.headD 0, Count.ofNat s.occurrences.length⟩ : FactorTally α) := by
      rw [hnumbers] at hlength hconstant ⊢
      rw [hcount]
      exact ht.ofProduct_of_single hzero hlength hconstant
    refine ⟨_, htally, htally', UInt32.toNat_ofNat', ?_, ?_,
      hs.sameDerivative ht hleaves (htally.trans htally'.symm)⟩
    · intro c hc
      rw [hc]
      exact ⟨rfl, rfl⟩
    · intro hnone
      rw [hnone]
      exact ⟨rfl, fun hbeq => if_pos hbeq⟩
  · intro l r t hnode hfactors
    have ht : ¬ t.IsProduct := not_isProduct_of_factors (not_isProduct_of_node hnode) hfactors
    obtain ⟨l', r', rfl⟩ := exists_mul_of_factors (hfactors.length_eq ▸ two_le_length_factors_mul l r)
    obtain ⟨found, hfound⟩ := exists_invalidShape (γ := UInt32) ht
    refine ⟨found, hfound, fun limits v => ?_⟩
    rw [outcome_derive_eq, outcome_deriveSum_mul, powerRule, hfound]
    rfl

/-- The products `2 · (x · 3)` and `(3 · 2) · x` over the rational numbers, `7 · (x · x)` and `(x · 7) · x` over floating-point numbers, and `x · (2 · sin x)` in another order. -/
theorem derive_ignores_order_of_factors_three :
    let _ : Literal ℚ := ⟨fun a => .decimal (toString a), fun a => a < 0⟩
    let _ : Counting ℚ UInt32 := ⟨fun n => (n : ℕ)⟩
    let x : Var := ⟨0, "x"⟩
    let s : Expr ℚ := .mul (.num 2) (.mul (.var x) (.num 3))
    let t : Expr ℚ := .mul (.mul (.num 3) (.num 2)) (.var x)
    let seven : Binary64 := ⟨0x401c000000000000⟩
    let s' : Expr Binary64 := .mul (.num seven) (.mul (.var x) (.var x))
    let t' : Expr Binary64 := .mul (.mul (.var x) (.num seven)) (.var x)
    let u : Expr ℚ := .mul (.mul (sin (.var x)) (.var x)) (.num 2)
    (∃ tally : FactorTally ℚ, FactorTally.ofProduct s = .ok tally ∧ FactorTally.ofProduct t = .ok tally ∧
        tally.constantSum = 5 ∧ (tally.variableCount : ℕ) = 1 ∧ SameDerivative s t) ∧
      (∃ tally : FactorTally Binary64, FactorTally.ofProduct s' = .ok tally ∧
        FactorTally.ofProduct t' = .ok tally ∧ tally.constantSum = seven ∧
        (tally.variableCount : ℕ) = 2 ∧ SameDerivative s' t') ∧
      ∃ found, (FactorTally.ofProduct u : Except Error (FactorTally ℚ)) = .error (.invalidShape found) := by
  intro _ _ x s t seven s' t' u
  obtain ⟨hexact, _, hrejected⟩ := derive_ignores_order_of_factors (α := ℚ)
  obtain ⟨_, hsingle, _⟩ := derive_ignores_order_of_factors (α := Binary64)
  refine ⟨?_, ?_, ?_⟩
  · have hleaves : ([.num 2, .var x] ++ [.num 3] : List (Leaf ℚ)).Perm ([.num 3] ++ [.num 2, .var x]) :=
      List.perm_append_comm
    obtain ⟨tally, hs, ht, hconstants, hcount, hsame⟩ := hexact ⟨add_assoc, add_comm, zero_add⟩ s t
      (.mul (.num 2) (.mul (.var x) (.num 3))) (.mul (.mul (.num 3) (.num 2)) (.var x)) hleaves
    have hsum : s.numbers.sum = 5 := by
      change (2 : ℚ) + (3 + 0) = 5
      norm_num
    exact ⟨tally, hs, ht, hconstants.trans hsum, hcount, hsame⟩
  · obtain ⟨tally, hs, ht, hcount, hconstant, _, hsame⟩ := hsingle (by decide) s' t'
      (.mul (.num seven) (.mul (.var x) (.var x))) (.mul (.mul (.var x) (.num seven)) (.var x))
      (.swap _ _ _) (by decide) (by decide)
    exact ⟨tally, hs, ht, (hconstant seven rfl).1, hcount, hsame⟩
  · have hfactors : ([sin (.var x)] ++ [.var x, .num 2] : List (Expr ℚ)).Perm
        ([.var x, .num 2] ++ [sin (.var x)]) :=
      List.perm_append_comm
    obtain ⟨found, hfound, _⟩ := hrejected (.var x) (.mul (.num 2) (sin (.var x))) u
      (.inr ⟨.sin, [.var x], by simp [postorder, argsPostorder, sin]⟩) hfactors
    exact ⟨found, hfound⟩

/-- The variable squared 32 times over has `2 ^ 32` factors, and the tally has counted none of them: the derivative is the number zero times the power with exponent minus one. -/
theorem variableCount_squaring_eq_zero :
    let x : Var := ⟨0, "x"⟩
    let e : Expr Binary64 := squaring x 32
    e.IsProduct ∧ e.numbers = [] ∧ e.occurrences.length = 4294967296 ∧
      FactorTally.ofProduct e = .ok (⟨0, 0⟩ : FactorTally Binary64) ∧
      (deriveSum x e).outcome = .ok (.mul (.num 0) (pow (.var x) (.num (-1)))) ∧
      ¬ ∃ tally : FactorTally Binary64, FactorTally.ofProduct e = .ok tally ∧
        (tally.variableCount : ℕ) = e.occurrences.length := by
  intro x e
  -- The tree has `2 ^ 33 - 1` nodes, so nothing is evaluated but the count.
  have hlength : e.occurrences.length = 4294967296 := length_occurrences_squaring x 32
  have htally : FactorTally.ofProduct e = .ok (⟨0, 0⟩ : FactorTally Binary64) :=
    ofProduct_squaring (by decide) x 32
  refine ⟨isProduct_squaring x 32, numbers_squaring x 32, hlength, htally, ?_, ?_⟩
  · have hnumber :
        (⟨0, 0⟩ : FactorTally Binary64).coefficient * (⟨0, 0⟩ : FactorTally Binary64).power = 0 := by
      decide
    have hexponent : (⟨0, 0⟩ : FactorTally Binary64).power - 1 = (-1 : Binary64) := by decide
    have hrule : powerRule x e = .ok (.mul (.num 0) (pow (.var x) (.num (-1)))) :=
      powerRule_eq_ok_iff.mpr ⟨_, htally, by rw [powerDerivative, hnumber, hexponent]⟩
    exact (outcome_deriveSum_mul x (squaring x 31) (squaring x 31)).trans hrule
  · rintro ⟨tally, hother, hcount⟩
    obtain rfl := Except.ok.inj (htally.symm.trans hother)
    rw [hlength] at hcount
    cases hcount

end Expr

end Univariate
