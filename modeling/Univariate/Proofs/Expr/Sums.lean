import Mathlib.Algebra.Ring.Nat
import Univariate.Proofs.Expr.Regrouping

/-!
# Splitting and building sums

A tree is split into its terms, and terms are put together into a sum that leans to the left. The two are inverse to each other up to the grouping of the sums: trees that are put together are split into the terms of all of them, and the terms of a tree are put together into a tree of the same size with the same terms and the same leaves. That tree is the normal form of the first: it leans to the left, and only a tree that does so is its own normal form.
-/

namespace Univariate

namespace Expr

variable {α : Type} {e d : Expr α} {ts us : List (Expr α)} {t : Expr α}

/-! ### Building and splitting -/

theorem terms_foldl_add (us : List (Expr α)) (t : Expr α) :
    (us.foldl .add t).terms = t.terms ++ us.flatMap terms := by
  induction us generalizing t with
  | nil => rw [List.foldl_nil, List.flatMap_nil, List.append_nil]
  | cons u us ih => rw [List.foldl_cons, ih, terms_add, List.flatMap_cons, List.append_assoc]

theorem terms_sum (hts : ∀ t ∈ ts, t.isSum = false) (hd : sum ts = .ok d) : d.terms = ts := by
  obtain ⟨t, us, rfl, rfl⟩ := sum_eq_ok_iff.mp hd
  have hus : us.flatMap terms = us := by
    have hmap : us.map terms = us.map fun u => [u] :=
      List.map_congr_left fun u hu => terms_of_isSum (hts u (List.mem_cons_of_mem t hu))
    rw [List.flatMap_def, hmap, ← List.flatMap_def, List.flatMap_singleton']
  rw [terms_foldl_add, terms_of_isSum (hts t List.mem_cons_self), hus, List.singleton_append]

/-- There is one sum more for each tree after the first. -/
theorem nodeCount_foldl_add (us : List (Expr α)) (t : Expr α) :
    (us.foldl .add t).nodeCount = ((t :: us).map nodeCount).sum + us.length := by
  induction us generalizing t with
  | nil => simp
  | cons u us ih =>
    rw [List.foldl_cons, ih]
    simp only [List.map_cons, List.sum_cons, List.length_cons, nodeCount_add]
    omega

/-! ### Sums that lean to the left -/

theorem leansLeft_foldl_add (ht : t.leansLeft = true) (hus : ∀ u ∈ us, u.isSum = false) :
    (us.foldl .add t).leansLeft = true := by
  induction us generalizing t with
  | nil => exact ht
  | cons u us ih =>
    have hu := hus u List.mem_cons_self
    rw [List.foldl_cons]
    refine ih ?_ fun w hw => hus w (List.mem_cons_of_mem u hw)
    rw [leansLeft, ht, leansLeft_of_isSum hu, hu]
    rfl

theorem leansLeft_sum (hts : ∀ t ∈ ts, t.isSum = false) (hd : sum ts = .ok d) :
    d.leansLeft = true := by
  obtain ⟨t, us, rfl, rfl⟩ := sum_eq_ok_iff.mp hd
  exact leansLeft_foldl_add (leansLeft_of_isSum (hts t List.mem_cons_self))
    fun u hu => hts u (List.mem_cons_of_mem t hu)

/-- The terms of a sum that leans to the left are put together in the way in which they came apart. -/
theorem sum_terms_of_leansLeft (h : e.leansLeft = true) : sum e.terms = .ok e := by
  induction e with
  | add l r ihl _ =>
    simp only [leansLeft, Bool.and_eq_true, Bool.not_eq_true'] at h
    obtain ⟨⟨hl, _⟩, hr⟩ := h
    obtain ⟨u, us, hterms, hfold⟩ := sum_eq_ok_iff.mp (ihl hl)
    rw [terms_add, hterms, terms_of_isSum hr, hfold, List.cons_append, sum, List.foldl_append]
    rfl
  | _ => rfl

/-! ### What the grouping has no part in -/

theorem terms_regroups : Regroups (fun a b : Expr α => a.terms = b.terms) .add :=
  .of_map terms_add List.append_assoc

theorem leaves_regroups : Regroups (fun a b : Expr α => a.leaves = b.leaves) .add :=
  .of_map leaves_add List.append_assoc

theorem nodeCount_regroups : Regroups (fun a b : Expr α => a.nodeCount = b.nodeCount) .add :=
  .of_map (g := fun m n => 1 + m + n) nodeCount_add fun m n k => by omega

theorem exists_sum_terms (e : Expr α) : ∃ d, sum e.terms = .ok d := by
  obtain ⟨t, ts, h⟩ := List.exists_cons_of_ne_nil e.terms_ne_nil
  rw [h]
  exact ⟨_, rfl⟩

/-- A tree is related to the sum of its terms by whatever does not see the grouping of sums. -/
theorem Regroups.of_sum_terms {T : Expr α → Expr α → Prop} (hT : Regroups T .add)
    (hd : sum e.terms = .ok d) : T e d := by
  obtain ⟨u, us, hterms, h⟩ := hT.combines_terms e
  rw [hterms] at hd
  obtain rfl := Except.ok.inj hd
  exact h

/-- The sum of the terms leans to the left, whatever the tree does. -/
theorem eq_iff_leansLeft (hd : sum e.terms = .ok d) : d = e ↔ e.leansLeft = true := by
  constructor
  · rintro rfl
    exact leansLeft_sum (fun t ht => (of_mem_terms ht).1) hd
  · intro h
    rw [sum_terms_of_leansLeft h] at hd
    exact (Except.ok.inj hd).symm

theorem sum_eq_error_iff {error : Error} : sum ts = .error error ↔ ts = [] ∧ error = .emptySum := by
  cases ts with
  | nil => simp [sum, eq_comm]
  | cons t ts => simp [sum]

/-- Trees that are put together have the terms of all of them, one after the other, and one node more than these for each tree after the first. The terms of a tree can be put together again: the result has the same terms, nodes and leaves, gives itself when it is taken apart once more, and is the tree itself exactly if no sum among those at the top has a sum for its right operand. Only from nothing no sum is made. -/
theorem terms_sum_inverse :
    (∀ (t : Expr α) (ts : List (Expr α)), ∃ d, sum (t :: ts) = .ok d ∧
        d.terms = (t :: ts).flatMap terms ∧
        d.nodeCount = ((t :: ts).map nodeCount).sum + ts.length) ∧
      (∀ e : Expr α, ∃ d, sum e.terms = .ok d ∧ d.terms = e.terms ∧ d.nodeCount = e.nodeCount ∧
        d.leaves = e.leaves ∧ sum d.terms = .ok d ∧ (d = e ↔ e.leansLeft = true)) ∧
      ∀ (ts : List (Expr α)) (error : Error),
        sum ts = .error error ↔ ts = [] ∧ error = .emptySum := by
  refine ⟨fun t ts => ?_, fun e => ?_, fun ts error => sum_eq_error_iff⟩
  · refine ⟨ts.foldl .add t, rfl, ?_, nodeCount_foldl_add ts t⟩
    rw [terms_foldl_add, List.flatMap_cons]
  · obtain ⟨d, hd⟩ := e.exists_sum_terms
    have hterms : e.terms = d.terms := terms_regroups.of_sum_terms hd
    refine ⟨d, hd, hterms.symm, (nodeCount_regroups.of_sum_terms hd).symm,
      (leaves_regroups.of_sum_terms hd).symm, ?_, eq_iff_leansLeft hd⟩
    rw [← hterms, hd]

/-- A sum that leans to the right is not its own normal form. -/
example (k m n : α) :
    sum (terms (.add (.num k) (.add (.num m) (.num n)))) =
      .ok (.add (.add (.num k) (.num m)) (.num n)) := rfl

end Expr

end Univariate
