import Univariate.Proofs.Code.Faults
import Univariate.Proofs.Expr.Values
import Univariate.Scalar.Binary64

/-!
# What compiled code computes

Run on any stack, the code of a tree puts the value of the tree on top and leaves the rest as it is. On the way the stack gets as high as the tree needs and no higher. Both are said of a stretch of code by `Instr.Computes`, which is put together along the tree: no law of arithmetic has a part in it, only the order in which operands are pushed and taken.
-/

namespace Univariate

namespace Instr

variable {α : Type} [Add α] [Mul α] [Elementary α]

/-! ### The stacks of a run -/

/-- The stacks of a run, from the one it starts on as far as it gets. -/
def trail (pool : Array α) (x : α) : List Instr → Array α → List (Array α)
  | [], stack => [stack]
  | instr :: instrs, stack =>
    stack :: ((step? pool x stack instr).map (trail pool x instrs)).getD []

variable {pool : Array α} {x : α}

theorem mem_trail_self (instrs : List Instr) (stack : Array α) : stack ∈ trail pool x instrs stack := by
  cases instrs with
  | nil => exact List.mem_singleton_self stack
  | cons instr instrs => exact List.mem_cons_self

theorem trail_cons {instr : Instr} {instrs : List Instr} {stack next : Array α}
    (h : step? pool x stack instr = some next) :
    trail pool x (instr :: instrs) stack = stack :: trail pool x instrs next := by
  rw [trail, h]
  rfl

theorem mem_trail_append {instrs rest : List Instr} {stack mid s : Array α}
    (h : instrs.foldlM (step? pool x) stack = some mid) :
    s ∈ trail pool x (instrs ++ rest) stack ↔
      s ∈ trail pool x instrs stack ∨ s ∈ trail pool x rest mid := by
  induction instrs generalizing stack with
  | nil =>
    obtain rfl := Option.some_inj.mp h
    constructor
    · exact Or.inr
    · rintro (hs | hs)
      · obtain rfl := List.mem_singleton.mp hs
        exact mem_trail_self rest s
      · exact hs
  | cons instr instrs ih =>
    rw [List.foldlM_cons] at h
    obtain ⟨next, hnext, h⟩ := Option.bind_eq_some_iff.mp h
    rw [List.cons_append, trail_cons hnext, trail_cons hnext, List.mem_cons, List.mem_cons, ih h,
      or_assoc]

theorem last_mem_trail {instrs : List Instr} {stack final : Array α}
    (h : instrs.foldlM (step? pool x) stack = some final) : final ∈ trail pool x instrs stack := by
  have hlast : final ∈ trail pool x (instrs ++ []) stack :=
    (mem_trail_append h).mpr (Or.inr (mem_trail_self [] final))
  rwa [List.append_nil] at hlast

/-- The greatest height of the stack during a run. -/
structure IsPeak (pool : Array α) (x : α) (instrs : List Instr) (stack : Array α) (height : Nat) :
    Prop where
  le : ∀ s ∈ trail pool x instrs stack, s.size ≤ height
  reached : ∃ s ∈ trail pool x instrs stack, s.size = height

theorem IsPeak.append {instrs rest : List Instr} {stack mid : Array α} {height height' : Nat}
    (hpeak : IsPeak pool x instrs stack height)
    (hrun : instrs.foldlM (step? pool x) stack = some mid)
    (hrest : IsPeak pool x rest mid height') :
    IsPeak pool x (instrs ++ rest) stack (max height height') := by
  constructor
  · intro s hs
    rcases (mem_trail_append hrun).mp hs with hs | hs
    · have hle := hpeak.le s hs
      omega
    · have hle := hrest.le s hs
      omega
  · obtain ⟨s, hs, hsize⟩ := hpeak.reached
    obtain ⟨s', hs', hsize'⟩ := hrest.reached
    rcases Nat.le_total height height' with hle | hle
    · exact ⟨s', (mem_trail_append hrun).mpr (Or.inr hs'), by omega⟩
    · exact ⟨s, (mem_trail_append hrun).mpr (Or.inl hs), by omega⟩

theorem IsPeak.step {instr : Instr} {stack next : Array α} (h : step? pool x stack instr = some next) :
    IsPeak pool x [instr] stack (max stack.size next.size) := by
  have htrail : trail pool x [instr] stack = [stack, next] := trail_cons h
  constructor
  · intro s hs
    rw [htrail] at hs
    rcases List.mem_pair.mp hs with rfl | rfl
    · exact Nat.le_max_left _ _
    · exact Nat.le_max_right _ _
  · rw [htrail]
    rcases Nat.le_total stack.size next.size with hle | hle
    · exact ⟨next, by simp, by omega⟩
    · exact ⟨stack, by simp, by omega⟩

/-! ### Stretches of code -/

/-- Run on any stack, the code puts `y` on top and takes `need` places above the stack. -/
structure Computes (pool : Array α) (x : α) (instrs : List Instr) (y : α) (need : Nat) : Prop where
  run : ∀ stack, instrs.foldlM (step? pool x) stack = some (stack.push y)
  peak : ∀ stack, IsPeak pool x instrs stack (stack.size + need)

namespace Computes

variable {y a b : α} {m n : Nat}

theorem of_push {instr : Instr} (h : ∀ stack, step? pool x stack instr = some (stack.push y)) :
    Computes pool x [instr] y 1 := by
  constructor
  · intro stack
    rw [List.foldlM_cons, h]
    rfl
  · intro stack
    have hpeak := IsPeak.step (h stack)
    rw [Array.size_push, Nat.max_eq_right (Nat.le_succ _)] at hpeak
    exact hpeak

theorem need_pos {instrs : List Instr} (h : Computes pool x instrs y m) : 0 < m := by
  have hle := (h.peak #[]).le _ (last_mem_trail (h.run #[]))
  rw [Array.size_push] at hle
  omega

/-- Two operands, one above the other, and an instruction that joins them. -/
theorem join {left right : List Instr} {instr : Instr} (hl : Computes pool x left a m)
    (hr : Computes pool x right b n)
    (h : ∀ stack : Array α, step? pool x ((stack.push a).push b) instr = some (stack.push y)) :
    Computes pool x (left ++ right ++ [instr]) y (max m (n + 1)) := by
  have hoperands : ∀ stack : Array α,
      (left ++ right).foldlM (step? pool x) stack = some ((stack.push a).push b) := by
    intro stack
    rw [List.foldlM_append, hl.run]
    exact hr.run (stack.push a)
  constructor
  · intro stack
    rw [List.foldlM_append, hoperands]
    change [instr].foldlM (step? pool x) ((stack.push a).push b) = some (stack.push y)
    rw [List.foldlM_cons, h]
    rfl
  · intro stack
    have hpeak := ((hl.peak stack).append (hl.run stack) (hr.peak _)).append (hoperands stack)
      (IsPeak.step (h stack))
    have hpos := hr.need_pos
    have hheight : max (max (stack.size + m) ((stack.push a).size + n))
        (max ((stack.push a).push b).size (stack.push y).size) = stack.size + max m (n + 1) := by
      simp only [Array.size_push]
      omega
    rw [hheight] at hpeak
    exact hpeak

/-- An operand, and an instruction that replaces it. -/
theorem replace {operand : List Instr} {instr : Instr} (hu : Computes pool x operand a m)
    (h : ∀ stack : Array α, step? pool x (stack.push a) instr = some (stack.push y)) :
    Computes pool x (operand ++ [instr]) y m := by
  constructor
  · intro stack
    rw [List.foldlM_append, hu.run]
    change [instr].foldlM (step? pool x) (stack.push a) = some (stack.push y)
    rw [List.foldlM_cons, h]
    rfl
  · intro stack
    have hpeak := (hu.peak stack).append (hu.run stack) (IsPeak.step (h stack))
    have hpos := hu.need_pos
    have hheight : max (stack.size + m) (max (stack.push a).size (stack.push y).size) =
        stack.size + m := by
      simp only [Array.size_push]
      omega
    rw [hheight] at hpeak
    exact hpeak

/-- The code of a tree computes the value of the tree, in any type in which its numbers are read. -/
theorem of_evaluateAs {β : Type} {literal : β → α} {e : Expr β} {place : β → Nat} {v : Var}
    (h : e.evaluateAs literal v x = .ok y)
    (hpool : ∀ n ∈ e.numbers, pool[place n]? = some (literal n)) :
    Computes pool x (e.listing place) y e.stackNeed := by
  induction e using Expr.arityInduction generalizing y with
  | num n =>
    obtain rfl := Except.ok.inj h
    apply of_push
    intro stack
    rw [step?, hpool n (by simp)]
    rfl
  | var w =>
    rw [Expr.evaluateAs] at h
    split at h
    case isTrue =>
      obtain rfl := Except.ok.inj h
      exact of_push fun stack => rfl
    case isFalse => cases h
  | add l r ihl ihr =>
    obtain ⟨a, hl, h⟩ := Error.bind_eq_ok_iff.mp h
    obtain ⟨b, hr, h⟩ := Error.bind_eq_ok_iff.mp h
    obtain rfl := Except.ok.inj h
    have hleft := ihl hl fun n hn => hpool n (by simp [hn])
    have hright := ihr hr fun n hn => hpool n (by simp [hn])
    exact hleft.join hright fun stack => onTopTwo?_push _ stack a b
  | mul l r ihl ihr =>
    obtain ⟨a, hl, h⟩ := Error.bind_eq_ok_iff.mp h
    obtain ⟨b, hr, h⟩ := Error.bind_eq_ok_iff.mp h
    obtain rfl := Except.ok.inj h
    have hleft := ihl hl fun n hn => hpool n (by simp [hn])
    have hright := ihr hr fun n hn => hpool n (by simp [hn])
    exact hleft.join hright fun stack => onTopTwo?_push _ stack a b
  | sin u ih =>
    obtain ⟨a, hu, h⟩ := Error.bind_eq_ok_iff.mp h
    obtain rfl := Except.ok.inj h
    have harg := ih hu fun n hn => hpool n (by simpa [Expr.sin] using hn)
    rw [Expr.stackNeed_sin, Expr.listing_sin]
    exact harg.replace fun stack => onTop?_push _ stack a
  | cos u ih =>
    obtain ⟨a, hu, h⟩ := Error.bind_eq_ok_iff.mp h
    obtain rfl := Except.ok.inj h
    have harg := ih hu fun n hn => hpool n (by simpa [Expr.cos] using hn)
    rw [Expr.stackNeed_cos, Expr.listing_cos]
    exact harg.replace fun stack => onTop?_push _ stack a
  | pow base exponent ihb ihe =>
    obtain ⟨a, hb, h⟩ := Error.bind_eq_ok_iff.mp h
    obtain ⟨b, he, h⟩ := Error.bind_eq_ok_iff.mp h
    obtain rfl := Except.ok.inj h
    have hbase := ihb hb fun n hn => hpool n (by simp [Expr.pow, hn])
    have hexponent := ihe he fun n hn => hpool n (by simp [Expr.pow, hn])
    rw [Expr.stackNeed_pow, Expr.listing_pow]
    exact hbase.join hexponent fun stack => onTopTwo?_push _ stack a b
  | misfit f args hf =>
    rw [Expr.evaluateAs_misfit hf] at h
    cases h

end Computes

end Instr

namespace Instr

variable {α : Type} [Add α] [Mul α] [Elementary α] {pool : Array α} {x : α}

/-- Code that gets through reads no constant that is not there. -/
theorem index_lt_size {instrs : List Instr} {stack final : Array α} {index : Nat}
    (h : instrs.foldlM (step? pool x) stack = some final) (hmem : .loadConst index ∈ instrs) :
    index < pool.size := by
  induction instrs generalizing stack with
  | nil => cases hmem
  | cons instr instrs ih =>
    rw [List.foldlM_cons] at h
    obtain ⟨next, hnext, h⟩ := Option.bind_eq_some_iff.mp h
    rcases List.mem_cons.mp hmem with rfl | hmem
    · obtain ⟨c, hc, _⟩ := Option.map_eq_some_iff.mp hnext
      exact (Array.getElem?_eq_some_iff.mp hc).1
    · exact ih h hmem

/-- Code that gets through does the same when it would go on without its operands. -/
theorem foldl_step [Measured α] {instrs : List Instr} {stack final : Array α}
    (h : instrs.foldlM (step? pool x) stack = some final) :
    instrs.foldl (step pool x) stack = final := by
  induction instrs generalizing stack with
  | nil => exact Option.some_inj.mp h
  | cons instr instrs ih =>
    rw [List.foldlM_cons] at h
    obtain ⟨next, hnext, h⟩ := Option.bind_eq_some_iff.mp h
    rw [List.foldl_cons, step_of_step? hnext]
    exact ih h

end Instr

/-! ### Compiled programs -/

namespace Program

variable {α : Type} [Add α] [Mul α] [Elementary α]

def trail (p : Program α) (x : α) : List (Array α) := Instr.trail p.pool x p.code.toList #[]

theorem run_eq [Measured α] {p : Program α} {x : α} {stack final : Array α}
    (h : p.run? x stack = some final) : p.run x stack = final := by
  rw [run?, ← Array.foldlM_toList] at h
  rw [run, ← Array.foldl_toList]
  exact Instr.foldl_step h

theorem evaluate_eq [Measured α] {p : Program α} {x y : α} (h : p.run? x #[] = some #[y]) :
    p.evaluate x = y := by
  have hempty : (Array.emptyWithCapacity p.stackSize : Array α).shrink 0 = #[] := by simp
  rw [evaluate, evaluateWith, hempty, run_eq h]
  rfl

variable [DecidableEq α] {e : Expr α} {param : Var}

theorem computes_ofTree {x y : α} (h : e.evaluate param x = .ok y) :
    Instr.Computes (ofTree e param).pool x (ofTree e param).code.toList y (ofTree e param).stackSize :=
  Instr.Computes.of_evaluateAs h fun _ => getElem?_idxOf_ofTree

theorem evaluate_of_compile [Measured α] {p : Program α} (h : compile e param = .ok p) {x y : α}
    (hy : e.evaluate param x = .ok y) : p.evaluate x = y := by
  obtain ⟨_, rfl⟩ := compile_eq_ok_iff.mp h
  apply evaluate_eq
  rw [run?, ← Array.foldlM_toList]
  exact (computes_ofTree hy).run #[]

/-- A compiled program gives at every point the value of its tree. Its run finds every operand and every constant, leaves the value alone on the stack, and takes exactly the height of stack that the program states. -/
theorem compile_refines_evaluate [Measured α] {p : Program α} (h : compile e param = .ok p) (x : α) :
    ∃ y, e.evaluate param x = .ok y ∧ p.evaluate x = y ∧
      p.run? x #[] = some #[y] ∧ p.run x #[] = #[y] ∧
      (∀ index, .loadConst index ∈ p.code → index < p.pool.size) ∧
      (∀ stack ∈ p.trail x, stack.size ≤ p.stackSize) ∧
      (∃ stack ∈ p.trail x, stack.size = p.stackSize) := by
  obtain ⟨⟨hbound, hfit, _⟩, rfl⟩ := compile_eq_ok_iff.mp h
  obtain ⟨y, hy⟩ := Expr.exists_evaluateAs id x hbound hfit
  have hcode := computes_ofTree hy
  have hpeak := hcode.peak #[]
  have hrun : (ofTree e param).run? x #[] = some #[y] := by
    rw [run?, ← Array.foldlM_toList]
    exact hcode.run #[]
  rw [Array.size_empty, Nat.zero_add] at hpeak
  refine ⟨y, hy, evaluate_eq hrun, hrun, run_eq hrun, ?_, hpeak.le, hpeak.reached⟩
  intro index hindex
  exact Instr.index_lt_size (hcode.run #[]) (Array.mem_toList_iff.mpr hindex)

/-- The square of `x` added to twice its sine, where the two constants share a place. -/
theorem compile_refines_evaluate_square_add_sin :
    let x : Var := ⟨0, "x"⟩
    let two : Binary64 := ⟨0x4000000000000000⟩
    let e : Expr Binary64 := .add (.pow (.var x) (.num two)) (.mul (.num two) (.sin (.var x)))
    let p : Program Binary64 :=
      ⟨x, #[.loadParam, .loadConst 0, .pow, .loadConst 0, .loadParam, .sin, .mul, .add], #[two], 3⟩
    compile e x = .ok p ∧
      ∀ a : Binary64, ∃ y, e.evaluate x a = .ok y ∧ p.evaluate a = y ∧
        p.run? a #[] = some #[y] ∧ p.run a #[] = #[y] ∧
        (∀ index, .loadConst index ∈ p.code → index < p.pool.size) ∧
        (∀ stack ∈ p.trail a, stack.size ≤ p.stackSize) ∧
        (∃ stack ∈ p.trail a, stack.size = p.stackSize) := by
  intro x two e p
  have h : compile e x = .ok p := by
    have hpool : CodeBuilder.addConstants #[] e = #[two] := by decide +kernel
    refine compile_eq_ok_iff.mpr ⟨by decide, ?_⟩
    simp [ofTree, hpool, e, p]
  exact ⟨h, fun a => compile_refines_evaluate h a⟩

end Program

end Univariate
