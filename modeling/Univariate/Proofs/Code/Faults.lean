import Univariate.Proofs.Code.Build
import Univariate.Proofs.Expr.Values

/-!
# Which trees compile

A tree compiles when it is well formed and there is room for the stack that it needs. The faults of the walk are of three kinds, one for each of these conditions. A fault of the third kind is always met with a full stack, because the height grows one value at a time; a fault of another kind is also the first defect of the tree, with which evaluation fails. So compilation and evaluation never disagree about what is wrong with a tree, and differ only where there is no room.
-/

namespace Univariate

namespace Expr

variable {α : Type} {param : Var} {height : Nat}

/-! ### The stack -/

theorem length_listing (place : α → Nat) (e : Expr α) : (e.listing place).length = e.nodeCount := by
  induction e with
  | num n => rfl
  | var v => rfl
  | add l r ihl ihr =>
    simp only [listing_add, nodeCount_add, List.length_append, List.length_singleton, ihl, ihr]
    omega
  | mul l r ihl ihr =>
    simp only [listing_mul, nodeCount_mul, List.length_append, List.length_singleton, ihl, ihr]
    omega
  | call f args ih =>
    have hargs : (args.flatMap (listing place)).length = (args.map nodeCount).foldr (· + ·) 0 := by
      rw [List.length_flatMap, List.map_congr_left ih]
      rfl
    rw [listing_call, nodeCount_call, List.length_append, hargs, List.length_singleton, Nat.add_comm]

theorem stackNeed_pos {e : Expr α} (h : e.callsFit = true) : 0 < e.stackNeed := by
  induction e using arityInduction with
  | num n => exact Nat.one_pos
  | var w => exact Nat.one_pos
  | add l r =>
    rw [stackNeed_add]
    omega
  | mul l r =>
    rw [stackNeed_mul]
    omega
  | sin u ih =>
    rw [stackNeed_sin]
    exact ih (by simpa using h)
  | cos u ih =>
    rw [stackNeed_cos]
    exact ih (by simpa using h)
  | pow base exponent =>
    rw [stackNeed_pow]
    omega
  | misfit f args hf => simp [hf] at h

/-- There is room for two operands when there is room for the first, and for the second above its value. -/
theorem room_for_two {need next limit : Nat} :
    height + max need (next + 1) ≤ limit ↔ height + need ≤ limit ∧ height + 1 + next ≤ limit := by
  omega

/-! ### The faults -/

theorem fault?_eq_none_iff {e : Expr α} :
    e.fault? param height = none ↔
      e.boundBy param = true ∧ e.callsFit = true ∧ height + e.stackNeed ≤ CodeBuilder.stackLimit := by
  induction e using arityInduction generalizing height with
  | num n =>
    rw [fault?_num, overflow?_eq_none_iff, Nat.lt_iff_add_one_le]
    simp only [boundBy_num, callsFit_num, stackNeed_num, true_and]
  | var w =>
    rw [fault?_var]
    split
    case isTrue hw =>
      rw [overflow?_eq_none_iff, Nat.lt_iff_add_one_le]
      simp only [boundBy_var, hw, callsFit_var, stackNeed_var, true_and]
    case isFalse hw => simp [hw]
  | add l r ihl ihr =>
    rw [fault?_add, Option.or_eq_none_iff, ihl, ihr, stackNeed_add, room_for_two]
    simp only [boundBy_add, callsFit_add, Bool.and_eq_true]
    tauto
  | mul l r ihl ihr =>
    rw [fault?_mul, Option.or_eq_none_iff, ihl, ihr, stackNeed_mul, room_for_two]
    simp only [boundBy_mul, callsFit_mul, Bool.and_eq_true]
    tauto
  | sin u ih =>
    rw [fault?_sin, ih, stackNeed_sin]
    simp
  | cos u ih =>
    rw [fault?_cos, ih, stackNeed_cos]
    simp
  | pow base exponent ihb ihe =>
    rw [fault?_pow, Option.or_eq_none_iff, ihb, ihe, stackNeed_pow, room_for_two]
    simp only [boundBy_pow, callsFit_pow, Bool.and_eq_true]
    tauto
  | misfit f args hf =>
    rw [fault?_misfit _ _ hf]
    simp [hf]

theorem succ_le_of_fault?_eq_none {e : Expr α} (h : e.fault? param height = none) :
    height + 1 ≤ CodeBuilder.stackLimit := by
  obtain ⟨_, hfit, hneed⟩ := fault?_eq_none_iff.mp h
  have hpos := stackNeed_pos hfit
  omega

theorem overflow?_eq_some {error : Error} (h : overflow? height = some error)
    (hheight : height ≤ CodeBuilder.stackLimit) :
    error = .stackOverflow (CodeBuilder.stackLimit + 1) CodeBuilder.stackLimit := by
  obtain ⟨hfull, rfl⟩ := overflow?_eq_some_iff.mp h
  have hlimit : height = CodeBuilder.stackLimit := by omega
  rw [hlimit]

theorem or_fault?_eq_some {l r : Expr α} {error overflow : Error}
    (h : (l.fault? param height).or (r.fault? param (height + 1)) = some error)
    (hl : l.fault? param height = some error → error = overflow ∨ l.defect? param = some error)
    (hr : r.fault? param (height + 1) = some error → height + 1 ≤ CodeBuilder.stackLimit →
      error = overflow ∨ r.defect? param = some error) :
    error = overflow ∨ (l.defect? param).or (r.defect? param) = some error := by
  rcases Option.or_eq_some_iff.mp h with hleft | ⟨hsound, hright⟩
  · rcases hl hleft with hover | hdefect
    · exact Or.inl hover
    · right
      rw [hdefect, Option.some_or]
  · obtain ⟨hbound, hfit, _⟩ := fault?_eq_none_iff.mp hsound
    have hnone : l.defect? param = none := defect?_eq_none_iff.mpr ⟨hbound, hfit⟩
    rw [hnone, Option.none_or]
    exact hr hright (succ_le_of_fault?_eq_none hsound)

/-- A fault is an overflow, met as soon as one value more than the limit is there, or it is the first defect of the tree. -/
theorem fault?_eq_some {e : Expr α} {error : Error} (h : e.fault? param height = some error)
    (hheight : height ≤ CodeBuilder.stackLimit) :
    error = .stackOverflow (CodeBuilder.stackLimit + 1) CodeBuilder.stackLimit ∨
      e.defect? param = some error := by
  induction e using arityInduction generalizing height with
  | num n =>
    rw [fault?_num] at h
    exact Or.inl (overflow?_eq_some h hheight)
  | var w =>
    rw [fault?_var] at h
    rw [defect?_var]
    split at h
    case isTrue => exact Or.inl (overflow?_eq_some h hheight)
    case isFalse hw => exact Or.inr (by rw [if_neg hw, h])
  | add l r ihl ihr =>
    rw [fault?_add] at h
    rw [defect?_add]
    exact or_fault?_eq_some h (ihl · hheight) ihr
  | mul l r ihl ihr =>
    rw [fault?_mul] at h
    rw [defect?_mul]
    exact or_fault?_eq_some h (ihl · hheight) ihr
  | sin u ih =>
    rw [fault?_sin] at h
    rw [defect?_sin]
    exact ih h hheight
  | cos u ih =>
    rw [fault?_cos] at h
    rw [defect?_cos]
    exact ih h hheight
  | pow base exponent ihb ihe =>
    rw [fault?_pow] at h
    rw [defect?_pow]
    exact or_fault?_eq_some h (ihb · hheight) ihe
  | misfit f args hf =>
    rw [fault?_misfit _ _ hf] at h
    rw [defect?_misfit _ hf]
    exact Or.inr h

end Expr

namespace Program

variable {α : Type} [DecidableEq α] {e : Expr α} {param : Var}

theorem compile_eq_ok_iff {p : Program α} :
    compile e param = .ok p ↔
      (e.boundBy param = true ∧ e.callsFit = true ∧ e.stackNeed ≤ CodeBuilder.stackLimit) ∧
        ofTree e param = p := by
  have hsound : e.fault? param 0 = none ↔
      e.boundBy param = true ∧ e.callsFit = true ∧ 0 + e.stackNeed ≤ CodeBuilder.stackLimit :=
    Expr.fault?_eq_none_iff
  rw [Nat.zero_add] at hsound
  rw [compile_eq, ← hsound]
  cases e.fault? param 0 with
  | none => simp
  | some error => simp

theorem size_code {p : Program α} (h : compile e param = .ok p) : p.code.size = e.nodeCount := by
  obtain ⟨_, rfl⟩ := compile_eq_ok_iff.mp h
  exact Expr.length_listing _ e

/-- A well-formed tree fails to compile only for want of room on the stack. -/
theorem compile_of_wellFormed (hbound : e.boundBy param = true) (hfit : e.callsFit = true) :
    compile e param =
      if e.stackNeed ≤ CodeBuilder.stackLimit then .ok (ofTree e param)
      else .error (.stackOverflow (CodeBuilder.stackLimit + 1) CodeBuilder.stackLimit) := by
  split
  case isTrue hroom => exact compile_eq_ok_iff.mpr ⟨⟨hbound, hfit, hroom⟩, rfl⟩
  case isFalse hroom =>
    rw [compile_eq]
    cases h : e.fault? param 0 with
    | none =>
      obtain ⟨_, _, hneed⟩ := Expr.fault?_eq_none_iff.mp h
      omega
    | some error =>
      rcases Expr.fault?_eq_some h (Nat.zero_le _) with rfl | hdefect
      · rfl
      · rw [Expr.defect?_eq_none_iff.mpr ⟨hbound, hfit⟩] at hdefect
        cases hdefect

theorem compile_eq_error_iff {error : Error} :
    compile e param = .error error ↔ e.fault? param 0 = some error := by
  rw [compile_eq]
  cases e.fault? param 0 with
  | none => simp
  | some fault => simp

section Evaluation

variable [Add α] [Mul α] [Elementary α]

theorem exists_compile_iff (e : Expr α) (param : Var) (x : α) :
    (∃ p, compile e param = .ok p) ↔
      (∃ y, e.evaluate param x = .ok y) ∧ e.stackNeed ≤ CodeBuilder.stackLimit := by
  have hvalue : (∃ y, e.evaluate param x = .ok y) ↔ e.boundBy param = true ∧ e.callsFit = true :=
    Expr.exists_evaluateAs_iff
  rw [hvalue]
  constructor
  · rintro ⟨p, hp⟩
    obtain ⟨⟨hbound, hfit, hroom⟩, _⟩ := compile_eq_ok_iff.mp hp
    exact ⟨⟨hbound, hfit⟩, hroom⟩
  · rintro ⟨⟨hbound, hfit⟩, hroom⟩
    exact ⟨ofTree e param, compile_eq_ok_iff.mpr ⟨⟨hbound, hfit, hroom⟩, rfl⟩⟩

/-- A tree compiles exactly when it has a value and there is room for the stack that it needs, which is then the stack of the program. Otherwise the error is the first fault on the walk. Unless it is an overflow, always by one value above the limit, it is the error of evaluation, and evaluation never fails where compilation succeeds. -/
theorem compile_fails_with_first_fault (e : Expr α) (param : Var) (x : α) :
    ((∃ p, compile e param = .ok p) ↔ (∃ y, e.evaluate param x = .ok y) ∧ e.stackNeed ≤ 1024) ∧
      (∀ p, compile e param = .ok p → p.stackSize = e.stackNeed) ∧
      (∀ error, compile e param = .error error ↔ e.fault? param 0 = some error) ∧
      (∀ error, compile e param = .error error →
        error = .stackOverflow 1025 1024 ∨
          (e.evaluate param x = .error error ∧
            ∀ depth limit, error ≠ .stackOverflow depth limit)) ∧
      (∀ error, e.evaluate param x = .error error →
        compile e param = .error error ∨
          compile e param = .error (.stackOverflow 1025 1024)) := by
  have hcases : ∀ {error : Error}, e.fault? param 0 = some error →
      error = .stackOverflow 1025 1024 ∨ e.defect? param = some error :=
    fun h => Expr.fault?_eq_some h (Nat.zero_le _)
  refine ⟨exists_compile_iff e param x, ?_, fun _ => compile_eq_error_iff, ?_, ?_⟩
  · intro p hp
    obtain ⟨_, rfl⟩ := compile_eq_ok_iff.mp hp
    rfl
  · intro error herror
    rcases hcases (compile_eq_error_iff.mp herror) with hover | hdefect
    · exact Or.inl hover
    · exact Or.inr ⟨Expr.evaluateAs_of_defect id x hdefect, Expr.defect?_ne_stackOverflow hdefect⟩
  · intro error herror
    have hdefect : e.defect? param = some error := Expr.evaluateAs_eq_error_iff.mp herror
    cases hfault : e.fault? param 0 with
    | none =>
      obtain ⟨hbound, hfit, _⟩ := Expr.fault?_eq_none_iff.mp hfault
      rw [Expr.defect?_eq_none_iff.mpr ⟨hbound, hfit⟩] at hdefect
      cases hdefect
    | some fault =>
      rw [compile_eq_error_iff, compile_eq_error_iff, hfault]
      rcases hcases hfault with rfl | hfirst
      · exact Or.inr rfl
      · exact Or.inl (hfirst.symm.trans hdefect)

end Evaluation

end Program

end Univariate
