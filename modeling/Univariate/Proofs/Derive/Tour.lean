import Mathlib.Data.List.Forall2
import Mathlib.Data.List.TakeWhile
import Univariate.Derive.Brackets
import Univariate.Derive.Tour
import Univariate.Proofs.Derive.Refusal

/-!
# Where a tour goes and where it stops

A tour visits the nodes of a tree in the order of a walk, so it stops at the node whose offence is the first one of the tree. Up to there it reports the terms of the tree in order, and what it reports of a sum or of a call can be read off what it reports of the parts. For this there are only three shapes of trees: sums, calls whose argument is toured by itself, and terms that hold no other terms; all that follows is proved by induction over these.
-/

namespace Univariate

namespace Expr

variable {α : Type}

/-! ### The nodes that a tour visits -/

theorem preorder_map {σ τ : Type} {down : σ → Expr α → Nat → σ} {down' : τ → Expr α → Nat → τ}
    {g : σ → τ} (hg : ∀ s node i, g (down s node i) = down' (g s) node i) (s : σ) (e : Expr α) :
    (e.preorder down s).map (Prod.map g id) = e.preorder down' (g s) := by
  induction e generalizing s with
  | num n => rfl
  | var v => rfl
  | add l r ihl ihr =>
    rw [preorder, preorder, List.map_cons, List.map_append, ihl, ihr, hg, hg]
    rfl
  | mul l r ihl ihr =>
    rw [preorder, preorder, List.map_cons, List.map_append, ihl, ihr, hg, hg]
    rfl
  | call f args ih =>
    have hargs : ∀ as ⊆ args, ∀ (states : Nat → σ) (states' : Nat → τ), (∀ i, g (states i) = states' i) →
        (argsPreorder down states as).map (Prod.map g id) = argsPreorder down' states' as := by
      intro as
      induction as with
      | nil =>
        intros
        rfl
      | cons a as ihas =>
        intro has states states' hstates
        obtain ⟨ha, has⟩ := List.cons_subset.mp has
        rw [argsPreorder, argsPreorder, List.map_append, ih a ha, hstates,
          ihas has _ (fun i => states' (i + 1)) fun i => hstates (i + 1)]
    rw [preorder, preorder, List.map_cons, hargs args (List.Subset.refl args) _ _ (hg s (.call f args))]
    rfl

variable (enclosing : List (Expr α))

theorem placedNodes_add (l r : Expr α) :
    (add l r).placedNodes ⟨.free, enclosing⟩ =
      (⟨.free, enclosing⟩, add l r) ::
        (l.placedNodes ⟨.free, enclosing⟩ ++ r.placedNodes ⟨.free, enclosing⟩) := rfl

theorem placedNodes_mul (place : Place) (l r : Expr α) :
    (mul l r).placedNodes ⟨place, enclosing⟩ =
      (⟨place, enclosing⟩, mul l r) ::
        (l.placedNodes ⟨.factor, enclosing⟩ ++ r.placedNodes ⟨.factor, enclosing⟩) := by
  cases place <;> rfl

theorem placedNodes_call {f : Func} (hf : f ≠ .pow) (u : Expr α) :
    (call f [u]).placedNodes ⟨.free, enclosing⟩ =
      (⟨.free, enclosing⟩, call f [u]) :: u.placedNodes ⟨.free, call f [u] :: enclosing⟩ := by
  cases f with
  | pow => exact absurd rfl hf
  | sin | cos =>
    rw [placedNodes, preorder, argsPreorder, argsPreorder, List.append_nil]
    rfl

theorem visits_tourTerm (e : Expr α) :
    (e.tourTerm enclosing).filterMap Step.visit? = e.placedNodes ⟨.free, enclosing⟩ := by
  rw [tourTerm, List.filterMap_append, List.filterMap_map]
  exact (List.append_nil _).trans List.filterMap_some

theorem visits_tourCall {f : Func} (hf : f ≠ .pow) {u : Expr α} {terms : List (Step α)}
    (hterms : terms.filterMap Step.visit? = u.placedNodes ⟨.free, call f [u] :: enclosing⟩) :
    (tourCall f enclosing u terms).filterMap Step.visit? =
      (call f [u]).placedNodes ⟨.free, enclosing⟩ := by
  cases hu : u.asVar? with
  | some w =>
    obtain rfl := asVar?_eq_some_iff.mp hu
    exact visits_tourTerm enclosing _
  | none =>
    have hfinish : (terms ++ [Step.finish (call f [u])]).filterMap Step.visit? =
        terms.filterMap Step.visit? := by
      rw [List.filterMap_append]
      exact List.append_nil _
    rw [tourCall_of_asVar? f enclosing hu, placedNodes_call enclosing hf, ← hterms, ← hfinish]
    rfl

theorem visits_tour (e : Expr α) :
    (e.tour enclosing).filterMap Step.visit? = e.placedNodes ⟨.free, enclosing⟩ := by
  induction e using arityInduction generalizing enclosing with
  | num n => exact visits_tourTerm enclosing _
  | var v => exact visits_tourTerm enclosing _
  | add l r ihl ihr =>
    rw [placedNodes_add, ← ihl, ← ihr, ← List.filterMap_append]
    rfl
  | mul l r => exact visits_tourTerm enclosing _
  | sin u ih => exact visits_tourCall enclosing (by decide) (ih _)
  | cos u ih => exact visits_tourCall enclosing (by decide) (ih _)
  | pow base exponent => exact visits_tourTerm enclosing _
  | misfit f args hargs =>
    rw [tour_misfit enclosing hargs]
    exact visits_tourTerm enclosing _

/-! ### Terms with and without other terms in them -/

theorem isChained_call_iff {f : Func} {u : Expr α} :
    (call f [u]).isChained = true ↔ f ≠ .pow ∧ u.asVar? = none := by
  cases f <;> simp [isChained]

theorem terms_add_ne (l r t : Expr α) : (add l r).terms ≠ [t] := by
  intro h
  have hlength := congrArg List.length h
  have hl := List.length_pos_iff.mpr l.terms_ne_nil
  have hr := List.length_pos_iff.mpr r.terms_ne_nil
  simp only [terms_add, List.length_append, List.length_singleton] at hlength
  omega

/-- Trees by their shape for a tour: sums, calls under the chain rule, and terms that hold no other terms. -/
@[elab_as_elim]
theorem chainInduction {motive : Expr α → Prop} (add : ∀ l r, motive l → motive r → motive (.add l r))
    (chained : ∀ f u, (call f [u]).isChained = true → motive u → motive (.call f [u]))
    (single : ∀ e : Expr α, e.terms = [e] → e.isChained = false → motive e) (e : Expr α) :
    motive e := by
  induction e using arityInduction with
  | num n => exact single _ rfl rfl
  | var v => exact single _ rfl rfl
  | add l r ihl ihr => exact add l r ihl ihr
  | mul l r => exact single _ rfl rfl
  | sin u ih =>
    cases hu : u.sin.isChained with
    | true => exact chained .sin u hu ih
    | false => exact single _ rfl hu
  | cos u ih =>
    cases hu : u.cos.isChained with
    | true => exact chained .cos u hu ih
    | false => exact single _ rfl hu
  | pow base exponent => exact single _ rfl rfl
  | misfit f args hargs =>
    apply single _ rfl
    cases f with
    | pow => rfl
    | sin | cos =>
      match args, hargs with
      | [], _ => rfl
      | [_], hargs => exact absurd rfl hargs
      | _ :: _ :: _, _ => rfl

theorem tour_single {e : Expr α} (he : e.terms = [e]) (hchained : e.isChained = false) :
    e.tour enclosing = e.tourTerm enclosing := by
  cases e using arityInduction with
  | add l r => exact absurd he (terms_add_ne l r _)
  | sin u | cos u =>
    cases u with
    | var w => rfl
    | _ => cases hchained
  | misfit f args hargs => exact tour_misfit enclosing hargs
  | _ => rfl

/-! ### Where a tour stops -/

variable [Literal α]

theorem findSome?_eq_bind_find? {β γ : Type} (g : β → Option γ) (bs : List β) :
    bs.findSome? g = (bs.find? fun b => (g b).isSome).bind g := by
  induction bs with
  | nil => rfl
  | cons b bs ih =>
    rw [List.findSome?_cons, List.find?_cons]
    cases hb : g b with
    | none => exact ih
    | some c => exact hb.symm

theorem firstOffence?_eq_bind (e : Expr α) :
    e.firstOffence? = (e.firstOffending? enclosing).bind fun visit => offence? visit.1.place visit.2 := by
  have hplaces : (e.placedNodes ⟨.free, enclosing⟩).map (Prod.map Position.place id) =
      e.preorder (fun place node _ => place.below node) .free :=
    preorder_map (fun _ _ _ => rfl) _ e
  rw [firstOffence?, firstOffenceAt?, firstDefect, ← hplaces, List.findSome?_map,
    findSome?_eq_bind_find?]
  rfl

theorem firstOffending?_eq_none_iff {e : Expr α} :
    e.firstOffending? enclosing = none ↔ e.firstOffence? = none := by
  rw [firstOffence?_eq_bind enclosing]
  cases h : e.firstOffending? enclosing with
  | none => simp
  | some visit =>
    have hoffending : isOffending visit = true := List.find?_some h
    rw [isOffending] at hoffending
    simp [Option.isSome_iff_ne_none.mp hoffending]

theorem all_isAllowed (steps : List (Step α)) :
    steps.all Step.isAllowed = ((steps.filterMap Step.visit?).find? isOffending).isNone := by
  induction steps with
  | nil => rfl
  | cons step steps ih =>
    cases step with
    | visit position node =>
      rw [List.all_cons, ih, Step.isAllowed, List.filterMap_cons]
      simp only [Step.visit?, Option.any_some, List.find?_cons]
      cases isOffending (position, node) <;> rfl
    | enter f u => exact ih
    | finish term => exact ih

theorem all_isAllowed_tour (e : Expr α) :
    (e.tour enclosing).all Step.isAllowed = (e.firstOffending? enclosing).isNone := by
  rw [all_isAllowed, visits_tour]
  rfl

/-! ### What is reported -/

theorem reported_append (steps rest : List (Step α)) :
    reported (steps ++ rest) =
      reported steps ++ if steps.all Step.isAllowed then reported rest else [] := by
  induction steps with
  | nil => rfl
  | cons step steps ih =>
    rw [reported] at ih ⊢
    rw [reported, List.cons_append, List.takeWhile_cons, List.takeWhile_cons, List.all_cons]
    cases step.isAllowed with
    | false => rfl
    | true =>
      simp only [if_true, List.filter_cons, Bool.true_and, ih]
      split <;> rfl

theorem reported_of_all {steps : List (Step α)} (h : steps.all Step.isAllowed = true) :
    reported steps = steps.filter Step.isReported := by
  rw [reported, List.takeWhile_eq_self_iff.mpr (List.all_eq_true.mp h)]

theorem reported_tour_add (l r : Expr α) :
    reported ((add l r).tour enclosing) =
      reported (l.tour enclosing) ++
        if (l.firstOffending? enclosing).isNone then reported (r.tour enclosing) else [] := by
  rw [← all_isAllowed_tour, ← reported_append]
  rfl

theorem reported_tourTerm (e : Expr α) :
    reported (e.tourTerm enclosing) =
      if (e.firstOffending? enclosing).isNone then [.finish e] else [] := by
  let visits := (e.placedNodes ⟨.free, enclosing⟩).map fun visit => Step.visit visit.1 visit.2
  have hvisits : reported visits = [] := by
    rw [reported, List.filter_eq_nil_iff]
    intro step hstep
    obtain ⟨visit, _, rfl⟩ := List.mem_map.mp ((List.takeWhile_sublist _).subset hstep)
    exact Bool.false_ne_true
  have hall : visits.all Step.isAllowed = (e.firstOffending? enclosing).isNone := by
    rw [all_isAllowed, List.filterMap_map]
    exact congrArg (fun placed : List (Position α × Expr α) => (placed.find? isOffending).isNone)
      List.filterMap_some
  have happend := reported_append visits [.finish e]
  rw [hvisits, hall] at happend
  exact happend

/-- The terms of an argument are reported between the entry into the argument and the end of the call. -/
theorem reported_tour_chained {f : Func} {u : Expr α} (h : (call f [u]).isChained = true) :
    reported ((call f [u]).tour enclosing) =
      .enter f u :: (reported (u.tour (call f [u] :: enclosing)) ++
        if (u.firstOffending? (call f [u] :: enclosing)).isNone then [.finish (call f [u])] else []) := by
  obtain ⟨hf, hu⟩ := isChained_call_iff.mp h
  have htour : (call f [u]).tour enclosing =
      tourCall f enclosing u (u.tour (call f [u] :: enclosing)) := by
    cases f with
    | pow => exact absurd rfl hf
    | sin => rfl
    | cos => rfl
  have happend := reported_append (u.tour (call f [u] :: enclosing)) [.finish (call f [u])]
  rw [all_isAllowed_tour] at happend
  rw [htour, tourCall_of_asVar? f enclosing hu]
  cases f with
  | pow => exact absurd rfl hf
  | sin => exact congrArg (Step.enter .sin u :: ·) happend
  | cos => exact congrArg (Step.enter .cos u :: ·) happend

theorem firstOffending?_add (l r : Expr α) :
    (add l r).firstOffending? enclosing =
      (l.firstOffending? enclosing).or (r.firstOffending? enclosing) := by
  rw [firstOffending?, placedNodes_add, List.find?_cons_of_neg Bool.false_ne_true, List.find?_append]
  rfl

theorem firstOffending?_chained {f : Func} {u : Expr α} (h : (call f [u]).isChained = true) :
    (call f [u]).firstOffending? enclosing = u.firstOffending? (call f [u] :: enclosing) := by
  obtain ⟨hf, _⟩ := isChained_call_iff.mp h
  rw [firstOffending?, placedNodes_call enclosing hf]
  cases f with
  | pow => exact absurd rfl hf
  | sin => exact List.find?_cons_of_neg Bool.false_ne_true
  | cos => exact List.find?_cons_of_neg Bool.false_ne_true

/-! ### The calls around an offence -/

/-- No call is entered on the way to a factor. -/
theorem enclosing_of_find?_factor {enclosing : List (Expr α)} {e : Expr α}
    {visit : Position α × Expr α}
    (h : (e.placedNodes ⟨.factor, enclosing⟩).find? isOffending = some visit) :
    visit.1.enclosing = enclosing := by
  induction e with
  | num n => cases h
  | var w => cases h
  | add l r =>
    cases h
    rfl
  | mul l r ihl ihr =>
    rw [placedNodes_mul, List.find?_cons_of_neg Bool.false_ne_true, List.find?_append,
      Option.or_eq_some_iff] at h
    rcases h with h | ⟨_, h⟩
    · exact ihl h
    · exact ihr h
  | call f args =>
    cases h
    rfl

theorem enclosing_of_firstOffending? {enclosing : List (Expr α)} {e : Expr α} (he : e.terms = [e])
    (hchained : e.isChained = false) {visit : Position α × Expr α}
    (h : e.firstOffending? enclosing = some visit) : visit.1.enclosing = enclosing := by
  cases e using arityInduction with
  | num n => cases h
  | var w => cases h
  | add l r => exact absurd he (terms_add_ne l r _)
  | mul l r =>
    rw [firstOffending?, placedNodes_mul, List.find?_cons_of_neg Bool.false_ne_true,
      List.find?_append, Option.or_eq_some_iff] at h
    rcases h with h | ⟨_, h⟩
    · exact enclosing_of_find?_factor h
    · exact enclosing_of_find?_factor h
  | sin u | cos u =>
    cases u with
    | var w => cases h
    | _ => cases hchained
  | pow base exponent =>
    cases h
    rfl
  | misfit f args hargs =>
    have hoffending : isOffending (⟨.free, enclosing⟩, call f args) = true := by
      cases f with
      | pow => rfl
      | sin | cos => simp only [isOffending, offence?, if_neg hargs, Option.isSome_some]
    rw [firstOffending?, placedNodes, preorder, List.find?_cons_of_pos hoffending] at h
    cases h
    rfl

end Expr

end Univariate
