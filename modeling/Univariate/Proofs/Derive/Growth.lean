import Univariate.Proofs.Derive.Terms
import Mathlib.Tactic.Ring

/-!
# How large a derivative gets

The chain rule puts a copy of the argument beside the derivative of the argument, so a node of a tree is copied once for each call around it. There are no more calls around a node than the tree is deep, and a derivative has therefore at most so many nodes for each node of the tree, and a few more.

The depth of a derivative is another matter. Its sums lean to the left over all terms, however flat the tree has been, so the depth is bounded by the number of nodes. Both bounds pass from terms to their sums because nodes and bounds add up in the same way, which is what the induction over a derivation carries through the calls.
-/

namespace Univariate

namespace Expr

variable {α : Type}

/-! ### Nodes and depth -/

theorem foldr_max_le_foldr_add {β : Type} {f g : β → Nat} {bs : List β} (h : ∀ b ∈ bs, f b ≤ g b) :
    (bs.map f).foldr max 0 ≤ (bs.map g).foldr (· + ·) 0 := by
  induction bs with
  | nil => exact Nat.le_refl 0
  | cons b bs ih =>
    have hb := h b List.mem_cons_self
    have hbs := ih fun c hc => h c (List.mem_cons_of_mem b hc)
    simp only [List.map_cons, List.foldr_cons]
    omega

theorem maxDepth_le_nodeCount (e : Expr α) : e.maxDepth ≤ e.nodeCount := by
  induction e with
  | num n => exact Nat.le_refl 1
  | var w => exact Nat.le_refl 1
  | add l r ihl ihr =>
    rw [maxDepth_add, nodeCount_add]
    omega
  | mul l r ihl ihr =>
    rw [maxDepth_mul, nodeCount_mul]
    omega
  | call f args ih =>
    rw [maxDepth_call, nodeCount_call]
    exact Nat.add_le_add_left (foldr_max_le_foldr_add ih) 1

theorem nodeCount_sin (u : Expr α) : u.sin.nodeCount = u.nodeCount + 1 := by
  rw [sin, nodeCount_call]
  exact Nat.add_comm 1 _

theorem nodeCount_cos (u : Expr α) : u.cos.nodeCount = u.nodeCount + 1 := by
  rw [cos, nodeCount_call]
  exact Nat.add_comm 1 _

theorem nodeCount_pos (e : Expr α) : 0 < e.nodeCount :=
  Nat.lt_of_lt_of_le e.maxDepth_pos e.maxDepth_le_nodeCount

/-! ### Bounds -/

/-- The tree `d` has at most `levels + 2` nodes for each node of `e`, and is at most two deeper than `e` has nodes. -/
structure GrowsWithin (levels : Nat) (e d : Expr α) : Prop where
  nodes : d.nodeCount ≤ e.nodeCount * (levels + 2)
  depth : d.maxDepth ≤ e.nodeCount + 2

namespace GrowsWithin

variable {levels : Nat} {e d l r a b u : Expr α}

theorem of_le (hnodes : d.nodeCount ≤ e.nodeCount * 2) (hdepth : d.maxDepth ≤ e.nodeCount + 2) :
    GrowsWithin levels e d := by
  constructor
  · exact hnodes.trans (Nat.mul_le_mul_left _ (Nat.le_add_left 2 levels))
  · exact hdepth

theorem add (hl : GrowsWithin levels l a) (hr : GrowsWithin levels r b) :
    GrowsWithin levels (.add l r) (.add a b) := by
  have hnodes := hl.nodes
  have hnodes' := hr.nodes
  have hdepth := hl.depth
  have hdepth' := hr.depth
  constructor
  · rw [nodeCount_add, nodeCount_add, Nat.add_mul, Nat.add_mul]
    omega
  · rw [maxDepth_add, nodeCount_add]
    omega

/-- A sum grows within the bounds of its terms, because the grouping of a sum has no part in the number of its nodes. -/
theorem sum {ts : List (Expr α)} (h : List.Forall₂ (GrowsWithin levels) e.terms ts)
    (hd : Expr.sum ts = .ok d) : GrowsWithin levels e d := by
  obtain ⟨t, rest, hterms, hnodes⟩ := nodeCount_regroups.combines_terms e
  obtain ⟨s, derivatives, rfl, rfl⟩ := sum_eq_ok_iff.mp hd
  rw [hterms] at h
  obtain ⟨hfirst, hrest⟩ := List.forall₂_cons.mp h
  have hfold : GrowsWithin levels (rest.foldl .add t) (derivatives.foldl .add s) :=
    List.rel_foldl (fun _ _ hl _ _ hr => hl.add hr) hfirst hrest
  exact ⟨hnodes ▸ hfold.nodes, hnodes ▸ hfold.depth⟩

/-- A product of two derivatives, of which the first holds a copy of the argument. The call has a level more than its argument, which pays for the copy. -/
theorem chain {outer : Expr α} (hu : ∀ inner, u.maxDepth ≤ inner → GrowsWithin inner u d)
    (hlevels : 1 + u.maxDepth ≤ levels) (he : e.nodeCount = u.nodeCount + 1)
    (houter : outer.nodeCount ≤ u.nodeCount + 3) (hdepth : outer.maxDepth ≤ u.maxDepth + 2) :
    GrowsWithin levels e (.mul outer d) := by
  obtain ⟨inner, rfl⟩ := Nat.exists_eq_add_of_le' (Nat.le_of_add_right_le hlevels)
  have hinner : u.maxDepth ≤ inner := by omega
  have hnodes := (hu inner hinner).nodes
  have hdeep := (hu inner hinner).depth
  have hpos := u.maxDepth_pos
  have hargument := u.maxDepth_le_nodeCount
  constructor
  · have hpaid : (u.nodeCount + 1) * (inner + 1 + 2) =
        u.nodeCount * (inner + 2) + u.nodeCount + inner + 3 := by ring
    rw [nodeCount_mul, he, hpaid]
    omega
  · rw [maxDepth_mul, he]
    omega

end GrowsWithin

/-! ### Derivatives -/

variable [Zero α] [One α] [Neg α] [Add α] [Sub α] [Mul α] [BEq α] [Literal α] {v : Var}
  {γ : Type} [Count γ] [Counting α γ]
  {e : Expr α} {ts : List (Expr α)}

theorem DerivesTo.growsWithin (h : DerivesTo v e ts) {levels : Nat} (hlevels : e.maxDepth ≤ levels) :
    List.Forall₂ (GrowsWithin levels) e.terms ts := by
  -- The levels are left open: an argument has one level less than the call around it.
  induction h generalizing levels with
  | num n => exact .cons (.of_le (by simp) (by simp)) .nil
  | var w => exact .cons (.of_le (by simp) (by simp)) .nil
  | add _ _ ihl ihr =>
    rw [maxDepth_add] at hlevels
    exact List.rel_append (ihl (by omega)) (ihr (by omega))
  | @mul l r tally _ =>
    -- The result always has five nodes, and a product has at least three.
    have hnodes : (powerDerivative v tally).nodeCount = 5 := rfl
    have hdepth : (powerDerivative v tally).maxDepth = 3 := rfl
    have hl := l.nodeCount_pos
    have hr := r.nodeCount_pos
    refine .cons (.of_le ?_ ?_) .nil
    · rw [hnodes, nodeCount_mul]
      omega
    · rw [hdepth, nodeCount_mul]
      omega
  | sinVar w =>
    refine .cons (.of_le ?_ (by simp [nodeCount_sin])) .nil
    simp [nodeCount_sin, nodeCount_cos]
  | cosVar w =>
    refine .cons (.of_le ?_ (by simp [nodeCount_cos])) .nil
    simp [nodeCount_sin, nodeCount_cos]
  | @sin u d us _ _ hd ih =>
    rw [maxDepth_sin] at hlevels
    refine .cons (.chain (fun _ hu => .sum (ih hu) hd) hlevels u.nodeCount_sin ?_ ?_) .nil
    · rw [nodeCount_cos]
      omega
    · rw [maxDepth_cos]
      omega
  | @cos u d us _ _ hd ih =>
    rw [maxDepth_cos] at hlevels
    refine .cons (.chain (fun _ hu => .sum (ih hu) hd) hlevels u.nodeCount_cos ?_ ?_) .nil
    · rw [nodeCount_mul, nodeCount_num, nodeCount_sin]
      omega
    · rw [maxDepth_mul, maxDepth_num, maxDepth_sin]
      omega

end Expr

namespace Limits

variable {α : Type} [Zero α] [One α] [Neg α] [Add α] [Sub α] [Mul α] [BEq α] [Literal α]
  {γ : Type} [Count γ] [Counting α γ]

/-- A derivative has at most as many nodes for each node of the tree as the tree is deep, and two more, and it is at most two deeper than the tree has nodes. -/
theorem derive_grows_within {limits : Limits} {v : Var} {e d : Expr α}
    (h : (limits.derive v e).outcome = .ok d) :
    d.nodeCount ≤ e.nodeCount * (e.maxDepth + 2) ∧ d.maxDepth ≤ e.nodeCount + 2 := by
  obtain ⟨_, _, _, ts, hts, hsum⟩ := outcome_derive_eq_ok_iff.mp h
  have hgrows : Expr.GrowsWithin e.maxDepth e d := .sum (hts.growsWithin (Nat.le_refl _)) hsum
  exact ⟨hgrows.nodes, hgrows.depth⟩

/-- The tree `cos (sin (x + (x + x)))`, whose argument is copied twice. -/
theorem derive_grows_within_cos_sin :
    let x : Var := ⟨0, "x"⟩
    let u : Expr Binary64 := .add (.var x) (.add (.var x) (.var x))
    let ones : Expr Binary64 := .add (.add (.num 1) (.num 1)) (.num 1)
    let d : Expr Binary64 := .mul (.mul (.num (-1)) u.sin.sin) (.mul u.cos ones)
    (derive {} x u.sin.cos).outcome = .ok d ∧
      d.nodeCount ≤ u.sin.cos.nodeCount * (u.sin.cos.maxDepth + 2) ∧
        d.maxDepth ≤ u.sin.cos.nodeCount + 2 := by
  intro x u ones d
  have hu : u.DerivesTo x [.num 1, .num 1, .num 1] := .add (.var x) (.add (.var x) (.var x))
  have hd : (derive {} x u.sin.cos).outcome = .ok d :=
    outcome_derive_eq_ok_iff.mpr
      ⟨by decide, by decide, by decide, _, .cos rfl (.sin rfl hu rfl) rfl, rfl⟩
  exact ⟨hd, derive_grows_within hd⟩

end Limits

end Univariate
