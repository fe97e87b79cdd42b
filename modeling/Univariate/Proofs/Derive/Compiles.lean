import Univariate.Derivative
import Univariate.Proofs.Code.Faults
import Univariate.Proofs.Derive.Refusal

/-!
# Derivatives compile

A derivative may be nested much deeper than the tree it comes from: each of its sums leans to the left over all terms, and the chain rule copies whole arguments. The stack that it needs hardly grows all the same. The left operand of a sum is computed on the empty stack, so a sum needs no more stack than its first term, and one place more than any other. What an induction has to carry is therefore a bound for the first of the terms and a smaller one for the rest.
-/

namespace Univariate

namespace Expr

variable {α : Type}

/-! ### Sums -/

theorem sum_induction {motive : Expr α → Prop} (hadd : ∀ l r, motive l → motive r → motive (add l r))
    {ts : List (Expr α)} {d : Expr α} (hts : ∀ t ∈ ts, motive t) (hd : sum ts = .ok d) : motive d := by
  obtain ⟨t, us, rfl, rfl⟩ := sum_eq_ok_iff.mp hd
  have ht := hts t List.mem_cons_self
  have hus : ∀ u ∈ us, motive u := fun u hu => hts u (List.mem_cons_of_mem t hu)
  clear hts hd
  induction us generalizing t with
  | nil => exact ht
  | cons u us ih =>
    rw [List.foldl_cons]
    apply ih
    · exact hadd t u ht (hus u List.mem_cons_self)
    · intro w hw
      exact hus w (List.mem_cons_of_mem u hw)

theorem sum_wellFormed {v : Var} {ts : List (Expr α)} {d : Expr α}
    (hts : ∀ t ∈ ts, t.boundBy v = true ∧ t.callsFit = true) (hd : sum ts = .ok d) :
    d.boundBy v = true ∧ d.callsFit = true := by
  refine sum_induction ?_ hts hd
  rintro l r ⟨hlbound, hlfit⟩ ⟨hrbound, hrfit⟩
  rw [boundBy_add, callsFit_add, hlbound, hlfit, hrbound, hrfit]
  exact ⟨rfl, rfl⟩

theorem stackNeed_foldl_add_le {us : List (Expr α)} {t : Expr α} {bound : Nat}
    (ht : t.stackNeed ≤ bound) (hus : ∀ u ∈ us, u.stackNeed + 1 ≤ bound) :
    (us.foldl .add t).stackNeed ≤ bound := by
  induction us generalizing t with
  | nil => exact ht
  | cons u us ih =>
    have hu := hus u List.mem_cons_self
    have hadd : (add t u).stackNeed ≤ bound := by
      rw [stackNeed_add]
      omega
    rw [List.foldl_cons]
    exact ih hadd fun w hw => hus w (List.mem_cons_of_mem u hw)

/-- Terms of which the first needs at most one place more than the depth, and the others none. -/
structure NeedAtMost (ts : List (Expr α)) (depth : Nat) : Prop where
  all : ∀ t ∈ ts, t.stackNeed ≤ depth + 1
  tail : ∀ t ∈ ts.tail, t.stackNeed ≤ depth

namespace NeedAtMost

variable {ts ls rs : List (Expr α)} {depth depth' : Nat}

theorem single {t : Expr α} (h : t.stackNeed ≤ depth + 1) : NeedAtMost [t] depth := by
  constructor
  · intro u hu
    obtain rfl := List.mem_singleton.mp hu
    exact h
  · intro u hu
    cases hu

/-- The terms of a sum, which is deeper than its operands, need no more than its depth. -/
theorem append {total : Nat} (hl : NeedAtMost ls depth) (hr : NeedAtMost rs depth')
    (hdepth : depth + 1 ≤ total) (hdepth' : depth' + 1 ≤ total) : NeedAtMost (ls ++ rs) total := by
  have hall : ∀ t ∈ ls ++ rs, t.stackNeed ≤ total := by
    intro t ht
    rcases List.mem_append.mp ht with ht | ht
    · exact Nat.le_trans (hl.all t ht) hdepth
    · exact Nat.le_trans (hr.all t ht) hdepth'
  constructor
  · intro t ht
    exact Nat.le_succ_of_le (hall t ht)
  · intro t ht
    exact hall t (List.mem_of_mem_tail ht)

theorem sum_le {d : Expr α} (h : NeedAtMost ts depth) (hd : sum ts = .ok d) :
    d.stackNeed ≤ depth + 1 := by
  obtain ⟨t, us, rfl, rfl⟩ := sum_eq_ok_iff.mp hd
  apply stackNeed_foldl_add_le (h.all t List.mem_cons_self)
  intro u hu
  exact Nat.succ_le_succ (h.tail u hu)

end NeedAtMost

/-! ### Trees -/

theorem stackNeed_le_maxDepth {e : Expr α} (h : e.callsFit = true) : e.stackNeed ≤ e.maxDepth := by
  induction e using arityInduction with
  | num n => exact Nat.le_refl 1
  | var w => exact Nat.le_refl 1
  | add l r ihl ihr =>
    rw [callsFit_add, Bool.and_eq_true] at h
    have hl := ihl h.1
    have hr := ihr h.2
    rw [stackNeed_add, maxDepth_add]
    omega
  | mul l r ihl ihr =>
    rw [callsFit_mul, Bool.and_eq_true] at h
    have hl := ihl h.1
    have hr := ihr h.2
    rw [stackNeed_mul, maxDepth_mul]
    omega
  | sin u ih =>
    have hu := ih (by simpa using h)
    rw [stackNeed_sin, maxDepth_sin]
    omega
  | cos u ih =>
    have hu := ih (by simpa using h)
    rw [stackNeed_cos, maxDepth_cos]
    omega
  | pow base exponent ihb ihe =>
    rw [callsFit_pow, Bool.and_eq_true] at h
    have hb := ihb h.1
    have he := ihe h.2
    rw [stackNeed_pow, maxDepth_pow]
    omega
  | misfit f args hf => simp [hf] at h

theorem IsProduct.callsFit {e : Expr α} (h : e.IsProduct) : e.callsFit = true := by
  induction h with
  | num n => rfl
  | var w => rfl
  | mul _ _ ihl ihr => rw [callsFit_mul, ihl, ihr, Bool.and_self]

theorem IsDifferentiable.callsFit {e : Expr α} (h : e.IsDifferentiable) : e.callsFit = true := by
  induction h with
  | num n => rfl
  | var w => rfl
  | add _ _ ihl ihr => rw [callsFit_add, ihl, ihr, Bool.and_self]
  | mul hl hr => exact (IsProduct.mul hl hr).callsFit
  | sin _ ih => rw [callsFit_sin, ih]
  | cos _ ih => rw [callsFit_cos, ih]

/-! ### Derivatives -/

variable [Zero α] [One α] [Neg α] [Add α] [Sub α] [Mul α] [BEq α] [Literal α] {v : Var}
  {γ : Type} [Count γ] [Counting α γ]
  {e : Expr α} {ts : List (Expr α)}

theorem DerivesTo.wellFormed (h : DerivesTo v e ts) (hbound : e.boundBy v = true) :
    ∀ t ∈ ts, t.boundBy v = true ∧ t.callsFit = true := by
  induction h with
  | num n => simp
  | var w => simp
  | @add l r ls rs _ _ ihl ihr =>
    rw [boundBy_add, Bool.and_eq_true] at hbound
    intro t ht
    rcases List.mem_append.mp ht with ht | ht
    · exact ihl hbound.1 t ht
    · exact ihr hbound.2 t ht
  | mul _ => simp [powerDerivative]
  | sinVar w => simpa using hbound
  | cosVar w => simpa using hbound
  | @sin u d us _ hus hd ih =>
    rw [boundBy_sin] at hbound
    obtain ⟨hdbound, hdfit⟩ := sum_wellFormed (ih hbound) hd
    simp [hbound, hus.isDifferentiable.callsFit, hdbound, hdfit]
  | @cos u d us _ hus hd ih =>
    rw [boundBy_cos] at hbound
    obtain ⟨hdbound, hdfit⟩ := sum_wellFormed (ih hbound) hd
    simp [hbound, hus.isDifferentiable.callsFit, hdbound, hdfit]

/-- The invariant of the stack along a derivation. -/
theorem DerivesTo.needAtMost (h : DerivesTo v e ts) : NeedAtMost ts e.maxDepth := by
  induction h with
  | num n => exact .single (by simp)
  | var w => exact .single (by simp)
  | @add l r ls rs _ _ ihl ihr =>
    apply ihl.append ihr
    · rw [maxDepth_add]
      omega
    · rw [maxDepth_add]
      omega
  | @mul l r tally _ =>
    -- The variable and its exponent lie above the coefficient; a product is at least two deep.
    have hpos := l.maxDepth_pos
    have hneed : (powerDerivative v tally).stackNeed = 3 := rfl
    apply NeedAtMost.single
    rw [hneed, maxDepth_mul]
    omega
  | sinVar w => exact .single (by simp)
  | cosVar w => exact .single (by simp)
  | @sin u d us _ hus hd ih =>
    -- The copy of the argument comes first, so only the inner derivative has a value below it.
    have hu := stackNeed_le_maxDepth hus.isDifferentiable.callsFit
    have hinner := ih.sum_le hd
    apply NeedAtMost.single
    rw [stackNeed_mul, stackNeed_cos, maxDepth_sin]
    omega
  | @cos u d us _ hus hd ih =>
    have hu := stackNeed_le_maxDepth hus.isDifferentiable.callsFit
    have hinner := ih.sum_le hd
    apply NeedAtMost.single
    rw [stackNeed_mul, stackNeed_mul, stackNeed_num, stackNeed_sin, maxDepth_cos]
    omega

end Expr

namespace Limits

variable {α : Type} [Zero α] [One α] [Neg α] [Add α] [Sub α] [Mul α] [BEq α] [Literal α]
  {γ : Type} [Count γ] [Counting α γ]

theorem derive_wellFormed {limits : Limits} {v : Var} {e d : Expr α}
    (h : (limits.derive v e).outcome = .ok d) :
    d.boundBy v = true ∧ d.callsFit = true ∧ d.stackNeed ≤ e.maxDepth + 1 := by
  obtain ⟨_, _, hbound, ts, hts, hsum⟩ := outcome_derive_eq_ok_iff.mp h
  obtain ⟨hdbound, hdfit⟩ := Expr.sum_wellFormed (hts.wellFormed hbound) hsum
  exact ⟨hdbound, hdfit, hts.needAtMost.sum_le hsum⟩

variable [DecidableEq α]

theorem outcome_differentiate (limits : Limits) (f : Abstraction α) :
    (limits.differentiate f).outcome = (limits.derive f.param f.body).outcome >>= fun body =>
      Program.compile body f.param >>= fun program => .ok ⟨⟨f.param, body⟩, program⟩ := by
  simp only [differentiate, Traced.outcome_bind, Traced.outcome_report, Traced.outcome_ofExcept]
  rfl

theorem outcome_differentiate_of_ok {limits : Limits} {f : Abstraction α} {body : Expr α}
    (h : (limits.derive f.param f.body).outcome = .ok body) :
    (limits.differentiate f).outcome =
      Program.compile body f.param >>= fun program => .ok ⟨⟨f.param, body⟩, program⟩ := by
  rw [outcome_differentiate, h]
  rfl

theorem of_outcome_differentiate {limits : Limits} {f : Abstraction α} {d : Derivative α}
    (h : (limits.differentiate f).outcome = .ok d) :
    (limits.derive f.param f.body).outcome = .ok d.function.body ∧
      Program.compile d.function.body f.param = .ok d.program := by
  rw [outcome_differentiate] at h
  obtain ⟨body, hbody, h⟩ := Error.bind_eq_ok_iff.mp h
  obtain ⟨program, hprogram, h⟩ := Error.bind_eq_ok_iff.mp h
  obtain rfl := Except.ok.inj h
  exact ⟨hbody, hprogram⟩

/-- A function can be differentiated when its body has a derivative, and otherwise for the same reason not. The derivative is well formed, and its program takes at most one place more than the body is deep, which is always there unless the limit of the depth is beyond that of the stack. -/
theorem differentiate_compiles (limits : Limits) (f : Abstraction α) :
    (∀ error, (limits.derive f.param f.body).outcome = .error error →
      (limits.differentiate f).outcome = .error error) ∧
    (∀ body, (limits.derive f.param f.body).outcome = .ok body →
      body.boundBy f.param = true ∧ body.callsFit = true ∧
        ((∃ program, (limits.differentiate f).outcome = .ok ⟨⟨f.param, body⟩, program⟩ ∧
            program.param = f.param ∧ program.stackSize ≤ f.body.maxDepth + 1) ∨
          (1023 < limits.maxDepth ∧ ∃ depth limit,
            (limits.differentiate f).outcome = .error (.stackOverflow depth limit)))) := by
  constructor
  · intro error h
    rw [outcome_differentiate, h]
    rfl
  · intro body h
    obtain ⟨hbound, hfit, hneed⟩ := derive_wellFormed h
    obtain ⟨hdepth, _⟩ := outcome_derive_eq_ok_iff.mp h
    have hlimit : CodeBuilder.stackLimit = 1024 := rfl
    refine ⟨hbound, hfit, ?_⟩
    rw [outcome_differentiate_of_ok h, Program.compile_of_wellFormed hbound hfit]
    by_cases hroom : body.stackNeed ≤ CodeBuilder.stackLimit
    · rw [if_pos hroom]
      exact Or.inl ⟨Program.ofTree body f.param, rfl, rfl, hneed⟩
    · rw [if_neg hroom]
      exact Or.inr ⟨by omega, _, _, rfl⟩

end Limits

end Univariate
