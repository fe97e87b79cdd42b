import Univariate.Proofs.Expr.Chains

/-!
# Regrouping and the parts of a text

Trees with regrouped terms, with regrouped factors or with regrouped arguments are regroupings of each other. The text of a tree is made of the same parts: the texts of its terms with signs of addition between them, and that of a term of the texts of its factors with signs of multiplication.
-/

namespace Univariate

namespace Expr

variable {α : Type} {R : α → α → Prop}

/-! ### Regrouped parts -/

theorem Regrouped.regroups_add : Regroups (Regrouped R) .add where
  refl := .refl
  symm := .symm
  trans := .trans
  congr := .add
  assoc := .sum

theorem Regrouped.regroups_mul : Regroups (Regrouped R) .mul where
  refl := .refl
  symm := .symm
  trans := .trans
  congr := .mul
  assoc := .product

theorem Regrouped.call (f : Func) {as bs : List (Expr α)} (h : List.Forall₂ (Regrouped R) as bs) :
    Regrouped R (.call f as) (.call f bs) := by
  -- The arguments are replaced from left to right.
  have hbefore (before : List (Expr α)) :
      Regrouped R (.call f (before ++ as)) (.call f (before ++ bs)) := by
    induction h generalizing before with
    | nil => exact .refl _
    | @cons a b as bs hab _ ih =>
      have hrest := ih (before ++ [b])
      rw [List.append_assoc, List.append_assoc] at hrest
      exact (Regrouped.argument f before as hab).trans hrest
  exact hbefore []

/-! ### The parts that a text is joined from -/

def isMul : Expr α → Bool
  | .mul _ _ => true
  | _ => false

theorem of_mem_terms {t e : Expr α} (h : t ∈ e.terms) :
    t.isSum = false ∧ t.occurrences ⊆ e.occurrences := by
  induction e with
  | add l r ihl ihr =>
    rw [occurrences_add]
    rcases List.mem_append.mp h with h | h
    · exact ⟨(ihl h).1, List.subset_append_of_subset_left _ (ihl h).2⟩
    · exact ⟨(ihr h).1, List.subset_append_of_subset_right _ (ihr h).2⟩
  | _ =>
    obtain rfl := List.mem_singleton.mp h
    exact ⟨rfl, List.Subset.refl _⟩

theorem of_mem_factors {u e : Expr α} (h : u ∈ e.factors) :
    u.isMul = false ∧ u.occurrences ⊆ e.occurrences := by
  induction e with
  | mul l r ihl ihr =>
    rw [occurrences_mul]
    rcases List.mem_append.mp h with h | h
    · exact ⟨(ihl h).1, List.subset_append_of_subset_left _ (ihl h).2⟩
    · exact ⟨(ihr h).1, List.subset_append_of_subset_right _ (ihr h).2⟩
  | _ =>
    obtain rfl := List.mem_singleton.mp h
    exact ⟨rfl, List.Subset.refl _⟩

theorem occurrences_call_subset_iff {f : Func} {args : List (Expr α)} {vs : List Var} :
    (call f args).occurrences ⊆ vs ↔ ∀ a ∈ args, a.occurrences ⊆ vs := by
  rw [occurrences_call]
  constructor
  · intro h a ha v hv
    exact h (List.mem_flatMap_of_mem ha hv)
  · intro h v hv
    obtain ⟨a, ha, hva⟩ := List.mem_flatMap.mp hv
    exact h a ha hva

variable [Literal α]

/-- The factors of a term, each with whether it is written in parentheses. A term that is no product never is. -/
def operands : Expr α → List (Bool × Expr α)
  | .mul l r => (mul l r).factors.map fun u => (u.needsParens, u)
  | e => [(false, e)]

def operandText (o : Bool × Expr α) : String := parenthesize o.1 o.2.text

theorem map_snd_operands (e : Expr α) : e.operands.map Prod.snd = e.factors := by
  cases e with
  | mul l r =>
    rw [operands, List.map_map]
    exact List.map_id _
  | _ => rfl

theorem forall₂_factors {T : Expr α → Expr α → Prop} {a b : Expr α}
    (h : List.Forall₂ (fun o o' => T o.2 o'.2) a.operands b.operands) :
    List.Forall₂ T a.factors b.factors := by
  rw [← map_snd_operands, ← map_snd_operands, List.forall₂_map_left_iff, List.forall₂_map_right_iff]
  exact h

theorem operands_ne_nil (e : Expr α) : e.operands ≠ [] := by
  intro h
  apply factors_ne_nil e
  rw [← map_snd_operands, h, List.map_nil]

theorem of_mem_operands {o : Bool × Expr α} {e : Expr α} (he : e.isSum = false) (h : o ∈ e.operands) :
    o.2.isMul = false ∧ o.2.occurrences ⊆ e.occurrences ∧ (o.2.isSum = true → o.1 = true) := by
  have hfactor : o.2 ∈ e.factors := by
    rw [← map_snd_operands]
    exact List.mem_map_of_mem h
  refine ⟨(of_mem_factors hfactor).1, (of_mem_factors hfactor).2, ?_⟩
  intro hsum
  cases e with
  | add l r => cases he
  | mul l r =>
    obtain ⟨u, _, rfl⟩ := List.mem_map.mp h
    cases u with
    | add l r => rfl
    | _ => cases hsum
  | _ =>
    obtain rfl := List.mem_singleton.mp h
    cases hsum

theorem text_eq_intercalate_terms (e : Expr α) : e.text = " + ".intercalate (e.terms.map text) := by
  induction e with
  | add l r ihl ihr =>
    rw [terms_add, List.map_append, String.intercalate_append_of_ne_nil, ← ihl, ← ihr, text]
    · exact mt List.map_eq_nil_iff.mp (terms_ne_nil l)
    · exact mt List.map_eq_nil_iff.mp (terms_ne_nil r)
  | _ => exact String.intercalate_singleton.symm

theorem operandText_eq_intercalate_factors (e : Expr α) :
    operandText (e.needsParens, e) =
      " * ".intercalate (e.factors.map fun u => operandText (u.needsParens, u)) := by
  induction e with
  | mul l r ihl ihr =>
    rw [factors_mul, List.map_append, String.intercalate_append_of_ne_nil, ← ihl, ← ihr]
    · rfl
    · exact mt List.map_eq_nil_iff.mp (factors_ne_nil l)
    · exact mt List.map_eq_nil_iff.mp (factors_ne_nil r)
  | _ => exact String.intercalate_singleton.symm

theorem text_eq_intercalate_operands (e : Expr α) :
    e.text = " * ".intercalate (e.operands.map operandText) := by
  cases e with
  | mul l r =>
    rw [operands, List.map_map]
    exact operandText_eq_intercalate_factors (mul l r)
  | _ => exact String.intercalate_singleton.symm

theorem intercalate_terms (e : Expr α) :
    " + ".toList.intercalate (e.terms.map fun t => t.text.toList) = e.text.toList := by
  rw [text_eq_intercalate_terms, String.toList_intercalate, List.map_map]
  rfl

theorem intercalate_operands (e : Expr α) :
    " * ".toList.intercalate (e.operands.map fun o => (operandText o).toList) = e.text.toList := by
  rw [text_eq_intercalate_operands, String.toList_intercalate, List.map_map]
  rfl

end Expr

end Univariate
