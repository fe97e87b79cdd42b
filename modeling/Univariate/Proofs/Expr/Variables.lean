import Mathlib.Data.List.Induction
import Univariate.Expr.Scope
import Univariate.Expr.Variables

/-!
# First occurrences

The list of the variables of a tree is its sequence of occurrences with the repetitions left out. It is put together by going through the occurrences from left to right, where each is added unless one equal to it is there, so it has the first of all equal occurrences, one after the other. A search for a variable by a property that depends on identities alone finds the same in both, and the first stranger among the variables of a tree is the first leaf that is another variable.
-/

namespace Univariate

namespace Var

instance : EquivBEq Var where
  rfl := beq_iff.mpr rfl
  symm h := beq_iff.mpr (beq_iff.mp h).symm
  trans h h' := beq_iff.mpr ((beq_iff.mp h).trans (beq_iff.mp h'))

def addTo (seen : List Var) (v : Var) : List Var := if seen.contains v then seen else seen ++ [v]

theorem find?_addTo {p : Var → Bool} (hp : ∀ v w : Var, (v == w) = true → p v = p w)
    (seen : List Var) (v : Var) : (addTo seen v).find? p = (seen ++ [v]).find? p := by
  by_cases hseen : seen.contains v = true
  · rw [addTo, if_pos hseen, List.find?_append]
    obtain ⟨w, hw, hvw⟩ := List.contains_iff_exists_mem_beq.mp hseen
    cases hfind : seen.find? p with
    | some u => rfl
    | none =>
      have hpw : ¬ p w = true := List.find?_eq_none.mp hfind w hw
      have hpv : ¬ p v = true := by rwa [hp v w hvw]
      simp [hpv]
  · rw [addTo, if_neg hseen]

theorem find?_foldl_addTo {p : Var → Bool} (hp : ∀ v w : Var, (v == w) = true → p v = p w)
    (vs seen : List Var) : (vs.foldl addTo seen).find? p = (seen ++ vs).find? p := by
  induction vs generalizing seen with
  | nil => rw [List.foldl_nil, List.append_nil]
  | cons v vs ih =>
    rw [List.foldl_cons, ih, List.find?_append, find?_addTo hp, ← List.find?_append,
      List.append_assoc, List.singleton_append]

/-! ### The places of first occurrences -/

variable {vs us : List Var} {u v : Var}

theorem idxOf_append_singleton_self (h : vs.contains v = false) :
    (vs ++ [v]).idxOf v = vs.length := by
  have hnone : vs.findIdx (· == v) = vs.length := by
    rw [← List.any_beq', List.any_eq_false] at h
    exact List.findIdx_eq_length.mpr fun w hw => Bool.eq_false_iff.mpr (h w hw)
  have hself : [v].findIdx (· == v) = 0 := by simp [List.findIdx_cons]
  rw [List.idxOf, List.findIdx_append, hnone, if_neg (Nat.lt_irrefl _), hself, Nat.zero_add]

/-- The list `us` has the first of all equal variables in `vs`, one after the other. -/
structure FirstOccurrences (vs us : List Var) : Prop where
  contains_eq (w : Var) : us.contains w = vs.contains w
  /-- Not only an equal variable but the variable itself stands at its place. -/
  getElem?_idxOf : ∀ v ∈ us, vs[vs.idxOf v]? = some v
  increasing : us.Pairwise fun v w => vs.idxOf v < vs.idxOf w

namespace FirstOccurrences

theorem nil : FirstOccurrences [] [] where
  contains_eq _ := rfl
  getElem?_idxOf _ hv := absurd hv List.not_mem_nil
  increasing := .nil

theorem idxOf_lt_length (h : FirstOccurrences vs us) (hu : u ∈ us) : vs.idxOf u < vs.length := by
  obtain ⟨hlt, _⟩ := List.getElem?_eq_some_iff.mp (h.getElem?_idxOf u hu)
  exact hlt

/-! Further occurrences leave the places of the earlier ones as they are. -/

theorem idxOf_append (h : FirstOccurrences vs us) (hu : u ∈ us) (ws : List Var) :
    (vs ++ ws).idxOf u = vs.idxOf u := by
  rw [List.idxOf, List.findIdx_append]
  exact if_pos (h.idxOf_lt_length hu)

theorem getElem?_idxOf_append (h : FirstOccurrences vs us) (ws : List Var) :
    ∀ u ∈ us, (vs ++ ws)[(vs ++ ws).idxOf u]? = some u := by
  intro u hu
  rw [h.idxOf_append hu, List.getElem?_append_left (h.idxOf_lt_length hu)]
  exact h.getElem?_idxOf u hu

theorem increasing_append (h : FirstOccurrences vs us) (ws : List Var) :
    us.Pairwise fun u w => (vs ++ ws).idxOf u < (vs ++ ws).idxOf w := by
  refine h.increasing.imp_of_mem fun hu hw hlt => ?_
  rwa [h.idxOf_append hu, h.idxOf_append hw]

theorem append_repetition (h : FirstOccurrences vs us) (hv : vs.contains v = true) :
    FirstOccurrences (vs ++ [v]) us where
  contains_eq w := by
    rw [List.contains_append, h.contains_eq]
    cases hw : w == v with
    | true => rw [List.contains_congr hw, hv, Bool.true_or]
    | false => simp [hw]
  getElem?_idxOf := h.getElem?_idxOf_append [v]
  increasing := h.increasing_append [v]

theorem append_first (h : FirstOccurrences vs us) (hv : vs.contains v = false) :
    FirstOccurrences (vs ++ [v]) (us ++ [v]) where
  contains_eq w := by rw [List.contains_append, List.contains_append, h.contains_eq]
  getElem?_idxOf := by
    refine List.forall_mem_append.mpr ⟨h.getElem?_idxOf_append [v], ?_⟩
    intro w hw
    obtain rfl := List.mem_singleton.mp hw
    rw [idxOf_append_singleton_self hv, List.getElem?_concat_length]
  increasing := by
    refine List.pairwise_append.mpr ⟨h.increasing_append [v], List.pairwise_singleton _ v, ?_⟩
    intro u hu w hw
    obtain rfl := List.mem_singleton.mp hw
    rw [h.idxOf_append hu, idxOf_append_singleton_self hv]
    exact h.idxOf_lt_length hu

theorem addTo (h : FirstOccurrences vs us) (v : Var) :
    FirstOccurrences (vs ++ [v]) (Var.addTo us v) := by
  rw [Var.addTo, h.contains_eq]
  split
  case isTrue hv => exact h.append_repetition hv
  case isFalse hv => exact h.append_first (by simpa using hv)

/-- Adding one occurrence after the other leaves the first ones. -/
theorem foldl_addTo (vs : List Var) : FirstOccurrences vs (vs.foldl Var.addTo []) := by
  induction vs using List.reverseRecOn with
  | nil => exact nil
  | append_singleton vs v ih =>
    rw [List.foldl_append]
    exact ih.addTo v

/-- Equal variables have their first occurrence in common. -/
theorem pairwise_beq_eq_false (h : FirstOccurrences vs us) :
    us.Pairwise fun v w => (v == w) = false := by
  refine h.increasing.imp fun {v w} hlt => ?_
  rw [← Bool.not_eq_true]
  intro heq
  have hsame : vs.idxOf v = vs.idxOf w := by
    rw [List.idxOf, List.idxOf]
    congr 1
    funext u
    exact BEq.congr_right heq
  omega

end FirstOccurrences

end Var

namespace Expr

variable {α : Type}

theorem addVariables_eq_foldl (seen : List Var) (e : Expr α) :
    e.addVariables seen = e.occurrences.foldl Var.addTo seen := by
  induction e generalizing seen with
  | num n => rfl
  | var v => rfl
  | add l r ihl ihr => rw [addVariables, ihl, ihr, occurrences_add, List.foldl_append]
  | mul l r ihl ihr => rw [addVariables, ihl, ihr, occurrences_mul, List.foldl_append]
  | call f args ih =>
    rw [addVariables, occurrences_call]
    induction args generalizing seen with
    | nil => rfl
    | cons a as ihas =>
      rw [addArgVariables, List.flatMap_cons, List.foldl_append, ih a List.mem_cons_self]
      exact ihas (fun b hb => ih b (List.mem_cons_of_mem a hb)) _

theorem firstOccurrences_vars (e : Expr α) : Var.FirstOccurrences e.occurrences e.vars := by
  rw [vars, addVariables_eq_foldl]
  exact .foldl_addTo e.occurrences

theorem contains_occurrences (e : Expr α) (w : Var) : e.occurrences.contains w = e.containsVar w := by
  induction e with
  | num n => rfl
  | var v => simp [containsVar, fold, BEq.comm]
  | add l r ihl ihr => rw [occurrences_add, List.contains_append, ihl, ihr, containsVar_add]
  | mul l r ihl ihr => rw [occurrences_mul, List.contains_append, ihl, ihr, containsVar_mul]
  | call f args ih =>
    rw [occurrences_call, List.contains_flatMap, containsVar_call, Bool.eq_iff_iff,
      List.any_eq_true, List.any_eq_true]
    exact exists_congr fun a => and_congr_right fun ha => by rw [ih a ha]

/-- The first stranger is the first leaf that is another variable. -/
theorem stranger?_eq_find? (v : Var) (e : Expr α) :
    e.stranger? v = e.occurrences.find? fun w => !(w == v) := by
  have hp : ∀ u w : Var, (u == w) = true → (!(u == v)) = !(w == v) :=
    fun _ _ huw => congrArg not (BEq.congr_left huw)
  rw [stranger?, vars, addVariables_eq_foldl, Var.find?_foldl_addTo hp, List.nil_append]

/-- The leaf `w` is another variable than `v`, and every variable among the leaves before it is `v`. -/
def IsFirstStranger (v w : Var) (e : Expr α) : Prop :=
  (w == v) = false ∧
    ∃ before after, e.leaves = before ++ .var w :: after ∧ ∀ u, .var u ∈ before → (u == v) = true

theorem stranger?_eq_some_iff {v w : Var} {e : Expr α} :
    e.stranger? v = some w ↔ e.IsFirstStranger v w := by
  have hleaf (leaf : Leaf α) : leaf.var? = some w ↔ leaf = .var w := by
    cases leaf <;> simp [Leaf.var?]
  have hbefore (before : List (Leaf α)) :
      (∀ leaf ∈ before, (!Option.any (fun u => !(u == v)) leaf.var?) = true) ↔
        ∀ u, .var u ∈ before → (u == v) = true := by
    constructor
    · intro h u hu
      simpa [Leaf.var?] using h (.var u) hu
    · intro h leaf hmem
      cases leaf with
      | num n => rfl
      | var u => simpa [Leaf.var?] using h u hmem
  rw [stranger?_eq_find?, occurrences, List.find?_filterMap, Option.bind_eq_some_iff]
  simp only [hleaf, exists_eq_right, List.find?_eq_some_iff_append, hbefore]
  simp [IsFirstStranger, Leaf.var?]

theorem find?_occurrences_eq_none_iff {v : Var} {e : Expr α} :
    e.occurrences.find? (fun w => !(w == v)) = none ↔ e.boundBy v = true := by
  simp [boundBy, List.find?_eq_none, List.all_eq_true]

theorem stranger?_var (v w : Var) :
    (var w : Expr α).stranger? v = if w == v then none else some w := by
  rw [stranger?_eq_find?, occurrences_var, List.find?_singleton]
  cases w == v <;> rfl

theorem stranger?_add (v : Var) (l r : Expr α) :
    (add l r).stranger? v = (l.stranger? v).or (r.stranger? v) := by
  simp only [stranger?_eq_find?, occurrences_add, List.find?_append]

theorem stranger?_mul (v : Var) (l r : Expr α) :
    (mul l r).stranger? v = (l.stranger? v).or (r.stranger? v) :=
  stranger?_add v l r

theorem stranger?_pow (v : Var) (base exponent : Expr α) :
    (base.pow exponent).stranger? v = (base.stranger? v).or (exponent.stranger? v) :=
  stranger?_add v base exponent

theorem stranger?_eq_none_iff {v : Var} {e : Expr α} : e.stranger? v = none ↔ e.boundBy v = true := by
  rw [stranger?_eq_find?, find?_occurrences_eq_none_iff]

end Expr

end Univariate
