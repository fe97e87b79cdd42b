import Univariate.Dual.Evaluate
import Univariate.Proofs.Code.Faults
import Univariate.Proofs.Derive.Refusal
import Univariate.Scalar.Binary64

/-!
# The first stranger

A tree may refer to another variable than the one that is bound. Differentiation looks for such a stranger in the list of the variables before it applies any rule; evaluation, evaluation by dual numbers and compilation meet it on their way through the tree. They all go from left to right, so they name the same variable: the first leaf that is a stranger. What may come in between is a call with a wrong number of arguments, and for compilation the end of the stack; where neither is there the first stranger is all that can go wrong.
-/

namespace Univariate

namespace Expr

variable {α : Type} {v : Var} {e : Expr α}

/-! ### Defects and faults -/

/-- A stranger is the only defect of a tree in which all calls fit. -/
theorem defect?_eq_map_stranger? (hfit : e.callsFit = true) :
    e.defect? v = (e.stranger? v).map fun w => .unboundVariable w.name := by
  induction e using arityInduction with
  | num n => rfl
  | var w =>
    rw [defect?_var, stranger?_var]
    split <;> rfl
  | add l r ihl ihr =>
    rw [callsFit_add, Bool.and_eq_true] at hfit
    rw [defect?_add, stranger?_add, Option.map_or, ihl hfit.1, ihr hfit.2]
  | mul l r ihl ihr =>
    rw [callsFit_mul, Bool.and_eq_true] at hfit
    rw [defect?_mul, stranger?_mul, Option.map_or, ihl hfit.1, ihr hfit.2]
  | sin u ih =>
    rw [callsFit_sin] at hfit
    rw [defect?_sin, ih hfit]
    rfl
  | cos u ih =>
    rw [callsFit_cos] at hfit
    rw [defect?_cos, ih hfit]
    rfl
  | pow base exponent ihb ihe =>
    rw [callsFit_pow, Bool.and_eq_true] at hfit
    rw [defect?_pow, stranger?_pow, Option.map_or, ihb hfit.1, ihe hfit.2]
  | misfit f args hf => simp [hf] at hfit

/-- With room on the stack the first fault of a tree is its first defect, even of a tree that does not compile. -/
theorem fault?_eq_defect? {height : Nat} (hfit : e.callsFit = true)
    (hroom : height + e.stackNeed ≤ CodeBuilder.stackLimit) :
    e.fault? v height = e.defect? v := by
  induction e using arityInduction generalizing height with
  | num n =>
    rw [stackNeed_num] at hroom
    rw [fault?_num, defect?_num, overflow?_eq_none_iff]
    exact hroom
  | var w =>
    rw [stackNeed_var] at hroom
    rw [fault?_var, defect?_var, overflow?_eq_none_iff.mpr hroom]
  | add l r ihl ihr =>
    rw [callsFit_add, Bool.and_eq_true] at hfit
    rw [stackNeed_add, room_for_two] at hroom
    rw [fault?_add, defect?_add, ihl hfit.1 hroom.1, ihr hfit.2 hroom.2]
  | mul l r ihl ihr =>
    rw [callsFit_mul, Bool.and_eq_true] at hfit
    rw [stackNeed_mul, room_for_two] at hroom
    rw [fault?_mul, defect?_mul, ihl hfit.1 hroom.1, ihr hfit.2 hroom.2]
  | sin u ih =>
    rw [callsFit_sin] at hfit
    rw [stackNeed_sin] at hroom
    rw [fault?_sin, defect?_sin, ih hfit hroom]
  | cos u ih =>
    rw [callsFit_cos] at hfit
    rw [stackNeed_cos] at hroom
    rw [fault?_cos, defect?_cos, ih hfit hroom]
  | pow base exponent ihb ihe =>
    rw [callsFit_pow, Bool.and_eq_true] at hfit
    rw [stackNeed_pow, room_for_two] at hroom
    rw [fault?_pow, defect?_pow, ihb hfit.1 hroom.1, ihe hfit.2 hroom.2]
  | misfit f args hf => simp [hf] at hfit

/-! ### Offences -/

section Offences

variable [Literal α]

theorem offence?_ne_unboundVariable {place : Place} {node : Expr α} {error : Error}
    (h : offence? place node = some error) (name : String) : error ≠ .unboundVariable name := by
  rintro rfl
  rw [offence?.eq_def] at h
  split at h
  -- Of a call outside of all products the arguments are counted first.
  case h_2 => split at h <;> cases h
  all_goals cases h

/-- No rule of differentiation fails for the sake of a variable. -/
theorem firstOffence?_ne_unboundVariable {error : Error} (h : e.firstOffence? = some error)
    (name : String) : error ≠ .unboundVariable name := by
  obtain ⟨_, _, hnode⟩ := exists_defect_of_firstDefect h
  exact offence?_ne_unboundVariable hnode name

end Offences

/-! ### Reports -/

/-- The outcome is an error exactly if the tree has a stranger, and the error names the first one. -/
def ReportsStranger {β : Type} (v : Var) (e : Expr α) (outcome : Except Error β) : Prop :=
  ∀ error, outcome = .error error ↔ ∃ w, e.IsFirstStranger v w ∧ error = .unboundVariable w.name

theorem reportsStranger_of_defect {β : Type} {outcome : Except Error β} (hfit : e.callsFit = true)
    (h : ∀ error, outcome = .error error ↔ e.defect? v = some error) :
    e.ReportsStranger v outcome := by
  intro error
  rw [h error, defect?_eq_map_stranger? hfit, Option.map_eq_some_iff]
  simp only [stranger?_eq_some_iff, eq_comm (a := error)]

end Expr

namespace Limits

variable {α : Type} [Literal α] {limits : Limits} {v : Var} {e : Expr α} {name : String}

theorem refusal?_eq_unboundVariable_iff :
    limits.refusal? v e = some (.unboundVariable name) ↔
      limits.check e = .ok () ∧ ∃ w, e.IsFirstStranger v w ∧ w.name = name := by
  rw [refusal?, check, ← Expr.stranger?_eq_find?]
  simp only [← Expr.stranger?_eq_some_iff]
  split
  case isTrue hdepth => simp
  case isFalse hdepth =>
    split
    case isTrue hnodes => simp
    case isFalse hnodes =>
      cases e.stranger? v with
      | some w => simp
      | none =>
        constructor
        · intro h
          exact absurd rfl (Expr.firstOffence?_ne_unboundVariable h name)
        · rintro ⟨_, w, hw, _⟩
          cases hw

variable [Zero α] [One α] [Neg α] [Add α] [Sub α] [Mul α] [BEq α]
  {γ : Type} [Count γ] [Counting α γ]

theorem outcome_derive_eq_error_iff {error : Error} :
    (limits.derive v e).outcome = .error error ↔ limits.refusal? v e = some error := by
  cases h : limits.refusal? v e with
  | none =>
    obtain ⟨d, hd⟩ := exists_outcome_derive h
    simp [hd]
  | some reason => rw [outcome_derive_of_refusal h, Except.error.injEq, Option.some.injEq]

end Limits

namespace Expr

variable {α β : Type} [Zero α] [One α] [Neg α] [Add α] [Sub α] [Mul α] [BEq α] [Literal α]
  {γ : Type} [Count γ] [Counting α γ]
  [DecidableEq α] [Elementary α] [Zero β] [One β] [Neg β] [Add β] [Sub β] [Mul β] [Div β] [BEq β]
  [Elementary β] [Logarithm β]

/-- The list of the variables of a tree has no two equal ones, has all that the tree refers to and has them in the order in which they first occur among the leaves. Whatever variable is bound, differentiation of a tree within the limits names the first leaf that is another one. So do evaluation, evaluation by dual numbers in any scalars, and compilation when there is room on the stack, if all calls in the tree fit. -/
theorem vars_by_first_occurrence (e : Expr α) :
    (e.vars.Pairwise fun v w => (v == w) = false) ∧
      (∀ w, e.vars.contains w = e.containsVar w) ∧
      (e.vars.Pairwise fun v w => e.occurrences.idxOf v < e.occurrences.idxOf w) ∧
      (∀ v ∈ e.vars, e.occurrences[e.occurrences.idxOf v]? = some v) ∧
      (∀ (limits : Limits) v name, (limits.derive v e).outcome = .error (.unboundVariable name) ↔
        limits.check e = .ok () ∧ ∃ w, e.IsFirstStranger v w ∧ w.name = name) ∧
      (e.callsFit = true → ∀ v,
        (∀ x, e.ReportsStranger v (e.evaluate v x)) ∧
          (∀ (literal : α → β) x, e.ReportsStranger v (e.evaluateDualAs literal v x)) ∧
          (e.stackNeed ≤ 1024 → e.ReportsStranger v (Program.compile e v))) := by
  have hfirst := e.firstOccurrences_vars
  refine ⟨hfirst.pairwise_beq_eq_false, fun w => ?_, hfirst.increasing, hfirst.getElem?_idxOf,
    fun limits v name => ?_, fun hfit v => ⟨fun x => ?_, fun literal x => ?_, fun hroom => ?_⟩⟩
  · rw [hfirst.contains_eq, contains_occurrences]
  · rw [Limits.outcome_derive_eq_error_iff, Limits.refusal?_eq_unboundVariable_iff]
  · exact reportsStranger_of_defect hfit fun _ => evaluateAs_eq_error_iff
  · exact reportsStranger_of_defect hfit fun _ => evaluateAs_eq_error_iff
  · refine reportsStranger_of_defect hfit fun _ => ?_
    rw [Program.compile_eq_error_iff, fault?_eq_defect? hfit (by rwa [Nat.zero_add])]

/-- The tree `x * x' + sin (y + x)`, where the variables `x` and `x'` are spelled alike. -/
theorem vars_by_first_occurrence_same_name :
    let x : Var := ⟨0, "x"⟩
    let x' : Var := ⟨1, "x"⟩
    let y : Var := ⟨2, "y"⟩
    let e : Expr Binary64 := .add (.mul (.var x) (.var x')) (sin (.add (.var y) (.var x)))
    e.vars = [x, x', y] ∧ e.IsFirstStranger x x' ∧ Limits.check {} e = .ok () ∧
      e.callsFit = true ∧ e.stackNeed ≤ 1024 ∧
      (Limits.derive {} x e).outcome = .error (.unboundVariable "x") ∧
      (∀ a : Binary64, e.evaluate x a = .error (.unboundVariable "x")) ∧
      (∀ a : Binary64, e.evaluateDual x a = .error (.unboundVariable "x")) ∧
      Program.compile e x = .error (.unboundVariable "x") := by
  intro x x' y e
  have hfirst : e.IsFirstStranger x x' := by
    refine ⟨rfl, [.var x], [.var y, .var x], rfl, fun u hu => ?_⟩
    obtain rfl := Leaf.var.inj (List.mem_singleton.mp hu)
    rfl
  have hcheck : Limits.check {} e = .ok () := Limits.check_eq_ok_iff.mpr ⟨by decide, by decide⟩
  have hfit : e.callsFit = true := rfl
  have hroom : e.stackNeed ≤ 1024 := by decide
  obtain ⟨_, _, _, _, hderive, hreports⟩ := vars_by_first_occurrence (β := Binary64) e
  obtain ⟨hevaluate, hdual, hcompile⟩ := hreports hfit x
  refine ⟨rfl, hfirst, hcheck, hfit, hroom, ?_, fun a => ?_, fun a => ?_, ?_⟩
  · exact (hderive {} x "x").mpr ⟨hcheck, x', hfirst, rfl⟩
  · exact (hevaluate a _).mpr ⟨x', hfirst, rfl⟩
  · exact (hdual id a _).mpr ⟨x', hfirst, rfl⟩
  · exact (hcompile hroom _).mpr ⟨x', hfirst, rfl⟩

end Expr

end Univariate
