import Mathlib.Data.List.Forall2
import Univariate.Expr.Text
import Univariate.Proofs.Expr.Variables

/-!
# Trees of the same structure

Two trees are similar when they have the same structure and related leaves in the same places, for a relation of numbers and one of variables. Everything that is read off a tree respects the relation as far as the leaves do: how large a tree is depends on the structure alone, its variables on the variables alone, and its text on how the leaves are written.
-/

namespace Univariate

namespace Expr

variable {α β γ : Type} {R : α → α → Prop} {S : Var → Var → Prop} {a b c : Expr α}

/-- The same tree up to related numbers and related variables. -/
inductive Similar (R : α → α → Prop) (S : Var → Var → Prop) : Expr α → Expr α → Prop where
  | num {m n : α} : R m n → Similar R S (.num m) (.num n)
  | var {v w : Var} : S v w → Similar R S (.var v) (.var w)
  | add {l l' r r' : Expr α} :
    Similar R S l l' → Similar R S r r' → Similar R S (.add l r) (.add l' r')
  | mul {l l' r r' : Expr α} :
    Similar R S l l' → Similar R S r r' → Similar R S (.mul l r) (.mul l' r')
  | call (f : Func) {as bs : List (Expr α)} :
    List.Forall₂ (Similar R S) as bs → Similar R S (.call f as) (.call f bs)

theorem forall₂_imp_mem {R R' : β → γ → Prop} {bs : List β} {cs : List γ}
    (h : List.Forall₂ R bs cs) (hR : ∀ b ∈ bs, ∀ c ∈ cs, R b c → R' b c) :
    List.Forall₂ R' bs cs := by
  induction h with
  | nil => exact .nil
  | cons hbc _ ih =>
    refine .cons (hR _ List.mem_cons_self _ List.mem_cons_self hbc) (ih ?_)
    intro b hb c hc
    exact hR b (List.mem_cons_of_mem _ hb) c (List.mem_cons_of_mem _ hc)

theorem forall₂_comp {δ : Type} {R : β → γ → Prop} {R' : γ → δ → Prop} {T : β → δ → Prop}
    (hT : ∀ b c d, R b c → R' c d → T b d) {bs : List β} {cs : List γ} {ds : List δ}
    (h : List.Forall₂ R bs cs) (h' : List.Forall₂ R' cs ds) : List.Forall₂ T bs ds := by
  induction h generalizing ds with
  | nil =>
    cases h'
    exact .nil
  | cons hbc _ ih =>
    cases h' with
    | cons hcd hrest => exact .cons (hT _ _ _ hbc hcd) (ih hrest)

theorem map_eq_map {g : β → γ} {bs cs : List β} (h : List.Forall₂ (fun b c => g b = g c) bs cs) :
    bs.map g = cs.map g := by
  rw [← List.forall₂_eq_eq_eq, List.forall₂_map_left_iff, List.forall₂_map_right_iff]
  exact h

theorem forall₂_right {P : β → γ → Prop} {Q : β → γ → Prop} {bs : List β} {cs : List γ}
    (h : List.Forall₂ (fun b c => ∃ _ : P b c, Q b c) bs cs) : List.Forall₂ Q bs cs := by
  refine h.imp ?_
  rintro b c ⟨_, hQ⟩
  exact hQ

namespace Similar

/-- What holds of similar trees whenever it holds of their parts one by one holds of all similar trees. -/
@[elab_as_elim]
theorem induction {motive : ∀ a b, Similar R S a b → Prop}
    (num : ∀ {m n} (h : R m n), motive _ _ (.num h))
    (var : ∀ {v w} (h : S v w), motive _ _ (.var h))
    (add : ∀ {l l' r r'} (hl : Similar R S l l') (hr : Similar R S r r'),
      motive _ _ hl → motive _ _ hr → motive _ _ (.add hl hr))
    (mul : ∀ {l l' r r'} (hl : Similar R S l l') (hr : Similar R S r r'),
      motive _ _ hl → motive _ _ hr → motive _ _ (.mul hl hr))
    (call : ∀ f {as bs} (h : List.Forall₂ (Similar R S) as bs),
      List.Forall₂ (fun a b => ∃ h, motive a b h) as bs → motive _ _ (.call f h))
    (h : Similar R S a b) : motive a b h := by
  induction a generalizing b with
  | num m =>
    cases h with
    | num h => exact num h
  | var v =>
    cases h with
    | var h => exact var h
  | add l r ihl ihr =>
    cases h with
    | add hl hr => exact add hl hr (ihl hl) (ihr hr)
  | mul l r ihl ihr =>
    cases h with
    | mul hl hr => exact mul hl hr (ihl hl) (ihr hr)
  | call f as ih =>
    cases h with
    | call _ hargs =>
      refine call f hargs (forall₂_imp_mem hargs fun a ha b _ h => ⟨h, ih a ha h⟩)

/-! ### The relation itself -/

theorem refl (hR : ∀ n, R n n) (hS : ∀ v, S v v) (e : Expr α) : Similar R S e e := by
  induction e with
  | num n => exact .num (hR n)
  | var v => exact .var (hS v)
  | add l r ihl ihr => exact .add ihl ihr
  | mul l r ihl ihr => exact .mul ihl ihr
  | call f args ih => exact .call f (List.forall₂_same.mpr ih)

theorem symm (hR : ∀ m n, R m n → R n m) (hS : ∀ v w, S v w → S w v) (h : Similar R S a b) :
    Similar R S b a := by
  induction h using Similar.induction with
  | num h => exact .num (hR _ _ h)
  | var h => exact .var (hS _ _ h)
  | add _ _ ihl ihr => exact .add ihl ihr
  | mul _ _ ihl ihr => exact .mul ihl ihr
  | call f _ ih => exact .call f (forall₂_right ih).flip

theorem trans (hR : ∀ m n k, R m n → R n k → R m k) (hS : ∀ v w u, S v w → S w u → S v u)
    (h : Similar R S a b) (h' : Similar R S b c) : Similar R S a c := by
  induction h using Similar.induction generalizing c with
  | num h =>
    cases h' with
    | num h' => exact .num (hR _ _ _ h h')
  | var h =>
    cases h' with
    | var h' => exact .var (hS _ _ _ h h')
  | add _ _ ihl ihr =>
    cases h' with
    | add hl hr => exact .add (ihl hl) (ihr hr)
  | mul _ _ ihl ihr =>
    cases h' with
    | mul hl hr => exact .mul (ihl hl) (ihr hr)
  | call f _ ih =>
    cases h' with
    | call _ hargs =>
      exact .call f (forall₂_comp (fun _ _ _ h h' => h h') (forall₂_right ih) hargs)

/-! ### What respects the relation -/

theorem forall₂_numbers (h : Similar R S a b) : List.Forall₂ R a.numbers b.numbers := by
  induction h using Similar.induction with
  | num h => exact .cons h .nil
  | var h => exact .nil
  | add _ _ ihl ihr =>
    rw [numbers_add, numbers_add]
    exact List.rel_append ihl ihr
  | mul _ _ ihl ihr =>
    rw [numbers_mul, numbers_mul]
    exact List.rel_append ihl ihr
  | call f _ ih =>
    rw [numbers_call, numbers_call]
    exact List.rel_flatMap (forall₂_right ih) fun _ _ h => h

theorem forall₂_occurrences (h : Similar R S a b) :
    List.Forall₂ S a.occurrences b.occurrences := by
  induction h using Similar.induction with
  | num h => exact .nil
  | var h => exact .cons h .nil
  | add _ _ ihl ihr =>
    rw [occurrences_add, occurrences_add]
    exact List.rel_append ihl ihr
  | mul _ _ ihl ihr =>
    rw [occurrences_mul, occurrences_mul]
    exact List.rel_append ihl ihr
  | call f _ ih =>
    rw [occurrences_call, occurrences_call]
    exact List.rel_flatMap (forall₂_right ih) fun _ _ h => h

/-- What is computed from the structure alone is the same. -/
theorem fold_eq {x : β} {add mul : β → β → β} {call : Func → List β → β} (h : Similar R S a b) :
    a.fold (fun _ => x) (fun _ => x) add mul call =
      b.fold (fun _ => x) (fun _ => x) add mul call := by
  induction h using Similar.induction with
  | num _ => rfl
  | var _ => rfl
  | add _ _ ihl ihr => rw [fold, fold, ihl, ihr]
  | mul _ _ ihl ihr => rw [fold, fold, ihl, ihr]
  | call f _ ih => rw [fold_call, fold_call, map_eq_map (forall₂_right ih)]

theorem nodeCount_eq (h : Similar R S a b) : a.nodeCount = b.nodeCount := h.fold_eq

theorem maxDepth_eq (h : Similar R S a b) : a.maxDepth = b.maxDepth := h.fold_eq

/-- The leaves can be related in another way if those of the two trees are. -/
theorem imp_mem {R' : α → α → Prop} {S' : Var → Var → Prop} (h : Similar R S a b)
    (hR : ∀ m ∈ a.numbers, ∀ n ∈ b.numbers, R m n → R' m n)
    (hS : ∀ v ∈ a.occurrences, ∀ w ∈ b.occurrences, S v w → S' v w) : Similar R' S' a b := by
  induction h using Similar.induction with
  | num h => exact .num (hR _ (List.mem_singleton_self _) _ (List.mem_singleton_self _) h)
  | var h => exact .var (hS _ (List.mem_singleton_self _) _ (List.mem_singleton_self _) h)
  | add _ _ ihl ihr =>
    simp only [numbers_add, occurrences_add, List.mem_append] at hR hS
    exact .add (ihl (fun m hm n hn => hR m (.inl hm) n (.inl hn)) fun v hv w hw => hS v (.inl hv) w (.inl hw))
      (ihr (fun m hm n hn => hR m (.inr hm) n (.inr hn)) fun v hv w hw => hS v (.inr hv) w (.inr hw))
  | mul _ _ ihl ihr =>
    simp only [numbers_mul, occurrences_mul, List.mem_append] at hR hS
    exact .mul (ihl (fun m hm n hn => hR m (.inl hm) n (.inl hn)) fun v hv w hw => hS v (.inl hv) w (.inl hw))
      (ihr (fun m hm n hn => hR m (.inr hm) n (.inr hn)) fun v hv w hw => hS v (.inr hv) w (.inr hw))
  | call f _ ih =>
    simp only [numbers_call, occurrences_call, List.mem_flatMap] at hR hS
    refine .call f (forall₂_imp_mem ih ?_)
    rintro a ha b hb ⟨_, h⟩
    exact h (fun m hm n hn => hR m ⟨a, ha, hm⟩ n ⟨b, hb, hn⟩)
      fun v hv w hw => hS v ⟨a, ha, hv⟩ w ⟨b, hb, hw⟩

/-! ### The same variables -/

theorem asVar?_eq (h : Similar R Eq a b) : a.asVar? = b.asVar? := by
  cases h with
  | var h => rw [h]
  | _ => rfl

theorem occurrences_eq (h : Similar R Eq a b) : a.occurrences = b.occurrences := by
  have hoccurrences := h.forall₂_occurrences
  rwa [List.forall₂_eq_eq_eq] at hoccurrences

theorem vars_eq (h : Similar R Eq a b) : a.vars = b.vars := by
  rw [vars, vars, addVariables_eq_foldl, addVariables_eq_foldl, h.occurrences_eq]

variable [Literal α]

theorem needsParens_eq (hR : ∀ m n, R m n → Literal.isNegative m = Literal.isNegative n)
    (h : Similar R Eq a b) : a.needsParens = b.needsParens := by
  cases h with
  | num h => exact hR _ _ h
  | _ => rfl

theorem text_eq (hform : ∀ m n, R m n → Literal.form m = Literal.form n)
    (hnegative : ∀ m n, R m n → Literal.isNegative m = Literal.isNegative n)
    (h : Similar R Eq a b) : a.text = b.text := by
  induction h using Similar.induction with
  | num h => rw [text, text, Literal.text, Literal.text, hform _ _ h]
  | var h => rw [h]
  | add _ _ ihl ihr => rw [text, text, ihl, ihr]
  | mul hl hr ihl ihr =>
    rw [text, text, ihl, ihr, hl.needsParens_eq hnegative, hr.needsParens_eq hnegative]
  | call f _ ih =>
    rw [text, text, argTexts_eq_map, argTexts_eq_map, map_eq_map (forall₂_right ih)]

end Similar

end Expr

end Univariate
