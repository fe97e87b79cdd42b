import Univariate.Expr.Equality
import Univariate.Proofs.Expr.Similar
import Univariate.Proofs.Scalar.Comparison

/-!
# Equality of trees as a relation

Trees are equal exactly when they are similar for the comparisons of numbers and of variables. So equality is symmetric and transitive when the comparison of numbers is, and the numbers of a tree decide alone whether it is equal to itself.
-/

namespace Univariate

instance : PartialEquivBEq Var where
  symm h := Var.beq_iff.mpr (Var.beq_iff.mp h).symm
  trans h h' := Var.beq_iff.mpr ((Var.beq_iff.mp h).trans (Var.beq_iff.mp h'))

namespace Expr

variable {α : Type} [BEq α] {a b : Expr α}

theorem equalArgs_iff {as bs : List (Expr α)} :
    equalArgs as bs = true ↔ List.Forall₂ (fun a b => (a == b) = true) as bs := by
  induction as generalizing bs with
  | nil => cases bs <;> simp [equalArgs]
  | cons a as ih =>
    cases bs with
    | nil => simp [equalArgs]
    | cons b bs =>
      rw [equalArgs, Bool.and_eq_true, ih, List.forall₂_cons]
      exact Iff.rfl

theorem beq_call_iff {f g : Func} {as bs : List (Expr α)} :
    (call f as == call g bs) = true ↔ f = g ∧ List.Forall₂ (fun a b => (a == b) = true) as bs := by
  rw [← equalArgs_iff, ← beq_iff_eq (a := f), ← Bool.and_eq_true]
  exact Iff.rfl

theorem similar_of_beq (h : (a == b) = true) :
    Similar (fun m n => (m == n) = true) (fun v w => (v == w) = true) a b := by
  induction a generalizing b with
  | num m =>
    cases b with
    | num n => exact .num h
    | _ => cases h
  | var v =>
    cases b with
    | var w => exact .var h
    | _ => cases h
  | add l r ihl ihr =>
    cases b with
    | add l' r' =>
      obtain ⟨hl, hr⟩ := Bool.and_eq_true_iff.mp h
      exact .add (ihl hl) (ihr hr)
    | _ => cases h
  | mul l r ihl ihr =>
    cases b with
    | mul l' r' =>
      obtain ⟨hl, hr⟩ := Bool.and_eq_true_iff.mp h
      exact .mul (ihl hl) (ihr hr)
    | _ => cases h
  | call f as ih =>
    cases b with
    | call g bs =>
      obtain ⟨rfl, hargs⟩ := beq_call_iff.mp h
      exact .call f (forall₂_imp_mem hargs fun a ha b _ hab => ih a ha hab)
    | _ => cases h

theorem Similar.beq
    (h : Similar (fun m n => (m == n) = true) (fun v w => (v == w) = true) a b) :
    (a == b) = true := by
  induction h using Similar.induction with
  | num h => exact h
  | var h => exact h
  | add _ _ ihl ihr => exact Bool.and_eq_true_iff.mpr ⟨ihl, ihr⟩
  | mul _ _ ihl ihr => exact Bool.and_eq_true_iff.mpr ⟨ihl, ihr⟩
  | call f _ ih => exact beq_call_iff.mpr ⟨rfl, forall₂_right ih⟩

instance [PartialEquivBEq α] : PartialEquivBEq (Expr α) where
  symm h := by
    apply Similar.beq
    exact (similar_of_beq h).symm (fun _ _ hmn => PartialEquivBEq.symm hmn)
      fun _ _ hvw => PartialEquivBEq.symm hvw
  trans h h' := by
    apply Similar.beq
    exact (similar_of_beq h).trans (fun _ _ _ hmn hnk => PartialEquivBEq.trans hmn hnk)
      (fun _ _ _ hvw hwu => PartialEquivBEq.trans hvw hwu) (similar_of_beq h')

theorem beq_self_iff {e : Expr α} : (e == e) = true ↔ ∀ n ∈ e.numbers, (n == n) = true := by
  constructor
  · intro h
    exact List.forall₂_same.mp (similar_of_beq h).forall₂_numbers
  · intro h
    apply Similar.beq
    apply (Similar.refl (R := Eq) (S := Eq) (fun _ => rfl) (fun _ => rfl) e).imp_mem
    · rintro m hm _ _ rfl
      exact h m hm
    · rintro v _ _ _ rfl
      exact Var.beq_iff.mpr rfl

/-! ### Floating-point numbers -/

/-- Equal trees in which a variable always has the same name are the same up to numbers that are alike. -/
theorem similar_alike_of_beq {a b : Expr Binary64} (h : (a == b) = true)
    (hnames : ∀ v ∈ a.occurrences, ∀ w ∈ b.occurrences, (v == w) = true → v.name = w.name) :
    Similar Binary64.Alike Eq a b := by
  apply (similar_of_beq h).imp_mem
  · intro m _ n _ hmn
    exact Binary64.alike_of_beq hmn
  · intro v hv w hw hvw
    have hname := hnames v hv w hw hvw
    have hid := Var.beq_iff.mp hvw
    cases v
    cases w
    exact congrArg₂ Var.mk hid hname

theorem Similar.beq_of_alike {a b : Expr Binary64} (h : Similar Binary64.Alike Eq a b)
    (hnan : ∀ n ∈ a.numbers, n.isNaN = false) : (a == b) = true := by
  apply Similar.beq
  apply h.imp_mem
  · intro m hm n _ hmn
    exact hmn.beq (hnan m hm)
  · rintro v _ _ _ rfl
    exact Var.beq_iff.mpr rfl

end Expr

end Univariate
