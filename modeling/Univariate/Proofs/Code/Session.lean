import Univariate.Proofs.Code.Run
import Mathlib.Data.List.Nodup

/-!
# Builders in use

A builder may be given one tree after the other, and it goes on after a failure with whatever the failure has left behind: constants in the pool, the code of some operands, a value more on the stack. What stays true through all of this is that the builder describes its own code. Run from the empty stack the code misses nothing, the height that is tracked is the height on which it ends, and the peak is the highest point of the run as far as the limit lets it be noted. The invariant is kept by appending one instruction for which the operands are there; a tree is then a sequence of such steps that may stop early.
-/

namespace Univariate

namespace Instr

theorem totalEffect_append_singleton (instrs : List Instr) (instr : Instr) :
    totalEffect (instrs ++ [instr]) = totalEffect instrs + instr.stackEffect := by
  rw [totalEffect, totalEffect, List.map_append, List.foldr_append]
  induction instrs.map stackEffect with
  | nil => exact Int.add_comm _ _
  | cons effect effects ih => rw [List.foldr_cons, List.foldr_cons, ih, Int.add_assoc]

variable {α : Type}

/-! ### One instruction -/

theorem exists_onTop? (op : α → α) {stack : Array α} (h : 0 < stack.size) :
    ∃ next, onTop? op stack = some next ∧ next.size = stack.size := by
  obtain ⟨rest, a, rfl⟩ := Array.exists_push_of_size_pos h
  exact ⟨rest.push (op a), onTop?_push op rest a, by rw [Array.size_push, Array.size_push]⟩

theorem exists_onTopTwo? (op : α → α → α) {stack : Array α} (h : 1 < stack.size) :
    ∃ next, onTopTwo? op stack = some next ∧ next.size + 1 = stack.size := by
  obtain ⟨below, b, rfl⟩ := Array.exists_push_of_size_pos (Nat.zero_lt_of_lt h)
  rw [Array.size_push] at h
  obtain ⟨rest, a, rfl⟩ := Array.exists_push_of_size_pos (Nat.lt_of_succ_lt_succ h)
  exact ⟨rest.push (op a b), onTopTwo?_push op rest a b, by simp only [Array.size_push]⟩

theorem getElem?_of_prefix {pool pool' : Array α} (hpool : pool.toList <+: pool'.toList) {index : Nat}
    {c : α} (h : pool[index]? = some c) : pool'[index]? = some c := by
  obtain ⟨more, hmore⟩ := hpool
  rw [← Array.getElem?_toList] at h ⊢
  obtain ⟨hlt, -⟩ := List.getElem?_eq_some_iff.mp h
  rw [← hmore, List.getElem?_append_left hlt, h]

variable [Add α] [Mul α] [Elementary α] {pool pool' : Array α} {x : α}

/-- An instruction whose operands are on the stack, and whose constant is in the pool, changes the height by its effect. -/
theorem exists_step? (x : α) {instr : Instr} {stack : Array α} (hstack : instr.operands ≤ stack.size)
    (hpool : ∀ index, instr = .loadConst index → index < pool.size) :
    ∃ next, step? pool x stack instr = some next ∧
      (next.size : Int) = stack.size + instr.stackEffect := by
  cases instr with
  | loadConst index =>
    have hlt := hpool index rfl
    refine ⟨stack.push pool[index], ?_, by simp [stackEffect]⟩
    rw [step?, Array.getElem?_eq_getElem hlt, Option.map_some]
  | loadParam => exact ⟨stack.push x, rfl, by simp [stackEffect]⟩
  | add =>
    obtain ⟨next, hnext, hsize⟩ := exists_onTopTwo? (· + ·) hstack
    exact ⟨next, hnext, by simp only [stackEffect]; omega⟩
  | mul =>
    obtain ⟨next, hnext, hsize⟩ := exists_onTopTwo? (· * ·) hstack
    exact ⟨next, hnext, by simp only [stackEffect]; omega⟩
  | sin =>
    obtain ⟨next, hnext, hsize⟩ := exists_onTop? Elementary.sin hstack
    exact ⟨next, hnext, by simp only [stackEffect]; omega⟩
  | cos =>
    obtain ⟨next, hnext, hsize⟩ := exists_onTop? Elementary.cos hstack
    exact ⟨next, hnext, by simp only [stackEffect]; omega⟩
  | pow =>
    obtain ⟨next, hnext, hsize⟩ := exists_onTopTwo? Elementary.pow hstack
    exact ⟨next, hnext, by simp only [stackEffect]; omega⟩

/-! ### A larger pool -/

theorem step?_of_prefix (hpool : pool.toList <+: pool'.toList) {instr : Instr} {stack next : Array α}
    (h : step? pool x stack instr = some next) : step? pool' x stack instr = some next := by
  cases instr with
  | loadConst index =>
    obtain ⟨c, hc, rfl⟩ := Option.map_eq_some_iff.mp h
    rw [step?, getElem?_of_prefix hpool hc, Option.map_some]
  | _ => exact h

/-- Code that gets through does the same when more constants stand behind those that it reads. -/
theorem foldlM_of_prefix (hpool : pool.toList <+: pool'.toList) {instrs : List Instr}
    {stack final : Array α} (h : instrs.foldlM (step? pool x) stack = some final) :
    instrs.foldlM (step? pool' x) stack = some final ∧
      trail pool' x instrs stack = trail pool x instrs stack := by
  induction instrs generalizing stack with
  | nil => exact ⟨h, rfl⟩
  | cons instr instrs ih =>
    rw [List.foldlM_cons] at h
    obtain ⟨next, hnext, h⟩ := Option.bind_eq_some_iff.mp h
    have hnext' := step?_of_prefix hpool hnext
    obtain ⟨hrun, htrail⟩ := ih h
    rw [List.foldlM_cons, hnext', trail_cons hnext', trail_cons hnext, htrail]
    exact ⟨hrun, rfl⟩

/-! ### Code from the empty stack -/

/-- Run from the empty stack the code misses nothing, ends with so many values and gets so high. -/
structure Balanced (pool : Array α) (x : α) (instrs : List Instr) (height peak : Nat) : Prop where
  run : ∃ stack, instrs.foldlM (step? pool x) #[] = some stack ∧ stack.size = height
  peak : IsPeak pool x instrs #[] peak

namespace Balanced

variable {instrs : List Instr} {height peak : Nat}

theorem nil (pool : Array α) (x : α) : Balanced pool x [] 0 0 := by
  constructor
  · exact ⟨#[], rfl, rfl⟩
  · constructor
    · intro s hs
      obtain rfl := List.mem_singleton.mp hs
      exact Nat.le_refl 0
    · exact ⟨#[], mem_trail_self [] #[], rfl⟩

theorem height_le (h : Balanced pool x instrs height peak) : height ≤ peak := by
  obtain ⟨stack, hrun, rfl⟩ := h.run
  exact h.peak.le stack (last_mem_trail hrun)

theorem of_prefix (hpool : pool.toList <+: pool'.toList) (h : Balanced pool x instrs height peak) :
    Balanced pool' x instrs height peak := by
  obtain ⟨stack, hrun, hsize⟩ := h.run
  obtain ⟨hrun', htrail⟩ := foldlM_of_prefix hpool hrun
  refine ⟨⟨stack, hrun', hsize⟩, ?_, ?_⟩
  · rw [htrail]
    exact h.peak.le
  · rw [htrail]
    exact h.peak.reached

theorem snoc (h : Balanced pool x instrs height peak) {instr : Instr} {height' : Nat}
    (hstack : instr.operands ≤ height)
    (hpool : ∀ index, instr = .loadConst index → index < pool.size)
    (hheight : (height' : Int) = height + instr.stackEffect) :
    Balanced pool x (instrs ++ [instr]) height' (max peak height') := by
  obtain ⟨stack, hrun, rfl⟩ := h.run
  obtain ⟨next, hnext, hsize⟩ := exists_step? x hstack hpool
  have hnextHeight : next.size = height' := by omega
  have hle := h.height_le
  constructor
  · refine ⟨next, ?_, hnextHeight⟩
    rw [List.foldlM_append, hrun]
    change [instr].foldlM (step? pool x) stack = some next
    rw [List.foldlM_cons, hnext]
    rfl
  · have hpeak := h.peak.append hrun (IsPeak.step hnext)
    have hmax : max peak (max stack.size next.size) = max peak height' := by omega
    rwa [hmax] at hpeak

end Balanced

end Instr

namespace CodeBuilder

variable {α : Type}

/-! ### Builders that have gone on -/

/-- The later builder has all of the code and all of the constants of the earlier one, with more behind them. -/
structure Extends (b b' : CodeBuilder α) : Prop where
  code : b.code.toList <+: b'.code.toList
  pool : b.pool.toList <+: b'.pool.toList

namespace Extends

variable {b b' b'' : CodeBuilder α}

theorem refl (b : CodeBuilder α) : b.Extends b := ⟨List.prefix_refl _, List.prefix_refl _⟩

theorem trans (h : b.Extends b') (h' : b'.Extends b'') : b.Extends b'' :=
  ⟨h.code.trans h'.code, h.pool.trans h'.pool⟩

theorem push (b : CodeBuilder α) (instr : Instr) (height peak : Nat) :
    b.Extends { b with code := b.code.push instr, height, peak } := by
  constructor
  · rw [Array.toList_push]
    exact List.prefix_append _ _
  · exact List.prefix_refl _

end Extends

/-- The builder at the end of a computation, whether it has failed or not. -/
def builderAfter : EStateM.Result Error (CodeBuilder α) Unit → CodeBuilder α
  | .ok _ b | .error _ b => b

theorem run_lower_emit (instr : Instr) (b : CodeBuilder α) :
    (do lower; emit instr : Build α Unit).run b =
      .ok () { b with code := b.code.push instr, height := b.height - 1 } := rfl

section Constants

variable [DecidableEq α]

def pushConstant (b : CodeBuilder α) (c : α) : CodeBuilder α :=
  { b with
    pool := b.pool.push c
    places := fun k => if k = c then some b.pool.size else b.places k }

theorem extends_pushConstant (b : CodeBuilder α) (c : α) : b.Extends (b.pushConstant c) := by
  constructor
  · exact List.prefix_refl _
  · rw [pushConstant, Array.toList_push]
    exact List.prefix_append _ _

theorem attempt_snd (e : Expr α) (b : CodeBuilder α) :
    (attempt e b).2 = builderAfter ((compile e).run b) := by
  rw [attempt]
  cases (compile e).run b <;> rfl

theorem stages_cons (b : CodeBuilder α) (e : Expr α) (es : List (Expr α)) :
    stages b (e :: es) = b :: stages (attempt e b).2 es := rfl

theorem getLast?_stages_cons (b : CodeBuilder α) (e : Expr α) (es : List (Expr α)) :
    (stages b (e :: es)).getLast? = (stages (attempt e b).2 es).getLast? := by
  rw [stages_cons, stages, List.getLast?_cons_cons]

/-! ### Trees as sequences of steps -/

/-- What a relation between the builder before a tree and the outcome has to satisfy to hold of all trees: it holds of the leaves and of the errors that no operand has raised, an operand that stops decides the outcome, and operands that succeed pass it on to the instruction after them. -/
structure Stepwise (R : CodeBuilder α → EStateM.Result Error (CodeBuilder α) Unit → Prop) : Prop where
  num : ∀ n b, R b ((compile (.num n)).run b)
  param : ∀ b, R b ((do emit .loadParam; raise : Build α Unit).run b)
  fail : ∀ {error : Error} b, (∀ depth limit, error ≠ .stackOverflow depth limit) →
    R b (.error error b)
  stop : ∀ {b b₁ b₂ : CodeBuilder α} {error : Error}, R b (.ok () b₁) → R b₁ (.error error b₂) →
    R b (.error error b₂)
  join : ∀ {b b₁ b₂ : CodeBuilder α} {instr : Instr}, instr.operands = 2 → instr.stackEffect = -1 →
    R b (.ok () b₁) → R b₁ (.ok () b₂) →
    R b (.ok () { b₂ with code := b₂.code.push instr, height := b₂.height - 1 })
  replace : ∀ {b b₁ : CodeBuilder α} {instr : Instr}, instr.operands = 1 → instr.stackEffect = 0 →
    R b (.ok () b₁) → R b (.ok () { b₁ with code := b₁.code.push instr })

namespace Stepwise

variable {R : CodeBuilder α → EStateM.Result Error (CodeBuilder α) Unit → Prop}

theorem two (h : Stepwise R) {l r : Expr α} {instr : Instr} (hoperands : instr.operands = 2)
    (heffect : instr.stackEffect = -1) (hl : ∀ b, R b ((compile l).run b))
    (hr : ∀ b, R b ((compile r).run b)) (b : CodeBuilder α) :
    R b ((do compile l; compile r; lower; emit instr : Build α Unit).run b) := by
  have hleft := hl b
  rw [EStateM.run_bind]
  cases hrun : (compile l).run b with
  | error error b₁ =>
    rw [hrun] at hleft
    exact hleft
  | ok _ b₁ =>
    rw [hrun] at hleft
    have hright := hr b₁
    dsimp only
    rw [EStateM.run_bind]
    cases hrun' : (compile r).run b₁ with
    | error error b₂ =>
      rw [hrun'] at hright
      exact h.stop hleft hright
    | ok _ b₂ =>
      rw [hrun'] at hright
      dsimp only
      rw [run_lower_emit]
      exact h.join hoperands heffect hleft hright

theorem one (h : Stepwise R) {u : Expr α} {instr : Instr} (hoperands : instr.operands = 1)
    (heffect : instr.stackEffect = 0) (hu : ∀ b, R b ((compile u).run b)) (b : CodeBuilder α) :
    R b ((do compile u; emit instr : Build α Unit).run b) := by
  have harg := hu b
  rw [EStateM.run_bind]
  cases hrun : (compile u).run b with
  | error error b₁ =>
    rw [hrun] at harg
    exact harg
  | ok _ b₁ =>
    rw [hrun] at harg
    dsimp only
    rw [run_emit]
    exact h.replace hoperands heffect harg

theorem compile (h : Stepwise R) (e : Expr α) (b : CodeBuilder α) :
    R b ((CodeBuilder.compile e).run b) := by
  induction e using Expr.arityInduction generalizing b with
  | num n => exact h.num n b
  | var w =>
    cases hw : w == b.param with
    | true =>
      rw [run_compile_var hw]
      exact h.param b
    | false =>
      rw [run_compile_var_of_free hw]
      exact h.fail b (by rintro _ _ ⟨⟩)
  | add l r ihl ihr =>
    rw [CodeBuilder.compile]
    exact h.two rfl rfl ihl ihr b
  | mul l r ihl ihr =>
    rw [CodeBuilder.compile]
    exact h.two rfl rfl ihl ihr b
  | sin u ih =>
    rw [Expr.sin, CodeBuilder.compile]
    exact h.one rfl rfl ih b
  | cos u ih =>
    rw [Expr.cos, CodeBuilder.compile]
    exact h.one rfl rfl ih b
  | pow base exponent ihb ihe =>
    rw [Expr.pow, CodeBuilder.compile]
    exact h.two rfl rfl ihb ihe b
  | misfit f args hf =>
    rw [run_compile_misfit hf]
    exact h.fail b (by rintro _ _ ⟨⟩)

end Stepwise

end Constants

variable [Add α] [Mul α] [Elementary α]

/-- The builder describes its own code. -/
structure Consistent (b : CodeBuilder α) : Prop where
  /-- The height that is tracked is what the instructions add up to. -/
  height : (b.height : Int) = Instr.totalEffect b.code.toList
  /-- At every point the code misses nothing, ends at that height, and gets as high as the peak says up to the limit. -/
  balanced : ∀ x, ∃ peak, Instr.Balanced b.pool x b.code.toList b.height peak ∧
    b.peak = min stackLimit peak
  /-- The map gives for a constant the place at which it stands in the pool, and for no other. -/
  places : ∀ c index, b.places c = some index ↔ b.pool[index]? = some c
  /-- The code reads no constant that is not there. -/
  loads : ∀ index, .loadConst index ∈ b.code → index < b.pool.size

namespace Consistent

variable {b : CodeBuilder α}

theorem start (param : Var) : Consistent ({ param } : CodeBuilder α) where
  height := rfl
  balanced x := ⟨0, Instr.Balanced.nil #[] x, rfl⟩
  places c index := by simp
  loads index h := absurd h (Array.not_mem_empty _)

/-- As every constant has one place, none stands twice in the pool. -/
theorem nodup (h : b.Consistent) : b.pool.toList.Nodup := by
  rw [List.nodup_iff_getElem?_ne_getElem?]
  intro i j hij hj heq
  rw [List.getElem?_eq_getElem hj] at heq
  have hplace := (h.places _ i).mpr (by rw [← Array.getElem?_toList, heq])
  have hplace' := (h.places _ j).mpr (by rw [← Array.getElem?_toList, List.getElem?_eq_getElem hj])
  obtain rfl := Option.some.inj (hplace.symm.trans hplace')
  exact Nat.lt_irrefl i hij

theorem emit (h : b.Consistent) {instr : Instr} {height peak : Nat}
    (hstack : instr.operands ≤ b.height)
    (hpool : ∀ index, instr = .loadConst index → index < b.pool.size)
    (hheight : (height : Int) = b.height + instr.stackEffect)
    (hpeak : ∀ top, b.height ≤ top → b.peak = min stackLimit top →
      peak = min stackLimit (max top height)) :
    Consistent { b with code := b.code.push instr, height, peak } := by
  constructor
  case height =>
    rw [Array.toList_push, Instr.totalEffect_append_singleton, ← h.height]
    exact hheight
  case balanced =>
    intro x
    obtain ⟨top, htop, hb⟩ := h.balanced x
    rw [Array.toList_push]
    exact ⟨max top height, htop.snoc hstack hpool hheight, hpeak top htop.height_le hb⟩
  case places => exact h.places
  case loads =>
    intro index hindex
    rcases Array.mem_push.mp hindex with hindex | rfl
    · exact h.loads index hindex
    · exact hpool index rfl

theorem pushConstant [DecidableEq α] (h : b.Consistent) {c : α} (hc : b.places c = none) :
    (b.pushConstant c).Consistent := by
  constructor
  case height => exact h.height
  case balanced =>
    intro x
    obtain ⟨top, htop, hpeak⟩ := h.balanced x
    exact ⟨top, htop.of_prefix (b.extends_pushConstant c).pool, hpeak⟩
  case places =>
    intro k index
    change (if k = c then some b.pool.size else b.places k) = some index ↔
      (b.pool.push c)[index]? = some k
    have hout : b.pool[index]? ≠ some c := by
      rw [ne_eq, ← h.places, hc]
      simp
    rw [Array.getElem?_push]
    by_cases hk : k = c
    · subst hk
      by_cases hindex : index = b.pool.size
      · simp [hindex]
      · simp [hindex, hout, Ne.symm hindex]
    · by_cases hindex : index = b.pool.size
      · simp [hk, hindex, h.places, Ne.symm hk]
      · simp [hk, hindex, h.places]
  case loads =>
    intro index hindex
    change index < (b.pool.push c).size
    rw [Array.size_push]
    exact Nat.lt_succ_of_lt (h.loads index hindex)

end Consistent

/-! ### What a tree leaves behind -/

/-- Whatever the outcome is, the builder has only been extended and is as consistent as before; if it is a success there is one more value on the stack. -/
structure Continues (b : CodeBuilder α) (result : EStateM.Result Error (CodeBuilder α) Unit) :
    Prop where
  consistent : b.Consistent → (builderAfter result).Consistent
  extended : b.Extends (builderAfter result)
  height : ∀ b', result = .ok () b' → b'.height = b.height + 1

namespace Continues

variable {b b' : CodeBuilder α} {result : EStateM.Result Error (CodeBuilder α) Unit}

/-- A computation that starts at the same height after something else has been done. -/
theorem after (hconsistent : b.Consistent → b'.Consistent) (hextends : b.Extends b')
    (hheight : b'.height = b.height) (h : b'.Continues result) : b.Continues result := by
  constructor
  · exact fun hb => h.consistent (hconsistent hb)
  · exact hextends.trans h.extended
  · rw [← hheight]
    exact h.height

theorem error {error : Error} (hconsistent : b.Consistent → b'.Consistent) (hextends : b.Extends b') :
    b.Continues (.error error b') := by
  refine ⟨hconsistent, hextends, ?_⟩
  intro _ h
  cases h

end Continues

/-- A load is emitted and counted even when there is no room for its value. -/
theorem continues_load {b : CodeBuilder α} {instr : Instr} (hoperands : instr.operands = 0)
    (heffect : instr.stackEffect = 1)
    (hpool : b.Consistent → ∀ index, instr = .loadConst index → index < b.pool.size) :
    b.Continues ((do emit instr; raise : Build α Unit).run b) := by
  have hstack : instr.operands ≤ b.height := by omega
  by_cases hroom : b.height < stackLimit
  · rw [run_leaf_of_room instr hroom]
    refine ⟨?_, .push b instr _ _, ?_⟩
    · intro hb
      refine hb.emit hstack (hpool hb) (by omega) ?_
      intro top htop hpeak
      omega
    · intro b' h
      cases h
      rfl
  · -- The limit has been reached before, so the peak stays where it is.
    rw [run_leaf_of_full instr hroom]
    refine .error ?_ (.push b instr _ _)
    intro hb
    refine hb.emit hstack (hpool hb) (by omega) ?_
    intro top htop hpeak
    omega

theorem Consistent.join {b : CodeBuilder α} (hb : b.Consistent) {instr : Instr}
    (hoperands : instr.operands = 2) (heffect : instr.stackEffect = -1) (htwo : 2 ≤ b.height) :
    Consistent { b with code := b.code.push instr, height := b.height - 1 } := by
  apply hb.emit
  · omega
  · rintro index rfl
    cases hoperands
  · omega
  · intro top htop hpeak
    omega

theorem Consistent.replace {b : CodeBuilder α} (hb : b.Consistent) {instr : Instr}
    (hoperands : instr.operands = 1) (heffect : instr.stackEffect = 0) (hone : 1 ≤ b.height) :
    Consistent { b with code := b.code.push instr } := by
  apply hb.emit
  · omega
  · rintro index rfl
    cases hoperands
  · omega
  · intro top htop hpeak
    omega

variable [DecidableEq α]

theorem continues_num (n : α) (b : CodeBuilder α) : b.Continues ((compile (.num n)).run b) := by
  rw [compile, EStateM.run_bind, intern, EStateM.run_modifyGet]
  cases hplace : b.places n with
  | some index =>
    dsimp only
    apply continues_load rfl rfl
    rintro hb _ ⟨⟩
    exact (Array.getElem?_eq_some_iff.mp ((hb.places n index).mp hplace)).1
  | none =>
    change b.Continues
      ((do emit (.loadConst b.pool.size); raise : Build α Unit).run (b.pushConstant n))
    refine .after ?_ (b.extends_pushConstant n) rfl (continues_load rfl rfl ?_)
    · exact fun hb => hb.pushConstant hplace
    · rintro _ _ ⟨⟩
      change b.pool.size < (b.pool.push n).size
      rw [Array.size_push]
      exact Nat.lt_succ_self _

theorem stepwise_continues : Stepwise (@Continues α _ _ _) where
  num := continues_num
  param b := continues_load rfl rfl (by rintro _ _ ⟨⟩)
  fail b _ := .error id (.refl b)
  stop hleft hright :=
    -- A right operand that fails leaves the value of the left one on the stack, which is consistent.
    .error (hright.consistent ∘ hleft.consistent) (hleft.extended.trans hright.extended)
  join := by
    intro b b₁ b₂ instr hoperands heffect hleft hright
    have hheight := hleft.height b₁ rfl
    have hheight' := hright.height b₂ rfl
    refine ⟨?_, ?_, ?_⟩
    · intro hb
      have hb₂ : b₂.Consistent := hright.consistent (hleft.consistent hb)
      exact hb₂.join hoperands heffect (by omega)
    · exact (hleft.extended.trans hright.extended).trans (.push b₂ instr _ _)
    · intro b' h
      cases h
      dsimp only
      omega
  replace := by
    intro b b₁ instr hoperands heffect harg
    have hheight := harg.height b₁ rfl
    refine ⟨?_, ?_, ?_⟩
    · intro hb
      have hb₁ : b₁.Consistent := harg.consistent hb
      exact hb₁.replace hoperands heffect (by omega)
    · exact harg.extended.trans (.push b₁ instr _ _)
    · intro b' h
      cases h
      exact hheight

theorem continues_compile (e : Expr α) (b : CodeBuilder α) : b.Continues ((compile e).run b) :=
  stepwise_continues.compile e b

/-! ### One tree after the other -/

theorem extends_of_mem_stages {b b' : CodeBuilder α} {es : List (Expr α)} (h : b' ∈ stages b es) :
    b.Extends b' := by
  induction es generalizing b with
  | nil =>
    obtain rfl := List.mem_singleton.mp h
    exact .refl b'
  | cons e es ih =>
    rcases List.mem_cons.mp h with rfl | h
    · exact .refl b'
    · have hstep := (continues_compile e b).extended
      rw [← attempt_snd] at hstep
      exact hstep.trans (ih h)

theorem consistent_attempt {b : CodeBuilder α} (hb : b.Consistent) (e : Expr α) :
    (attempt e b).2.Consistent := by
  rw [attempt_snd]
  exact (continues_compile e b).consistent hb

theorem consistent_of_mem_stages {b b' : CodeBuilder α} {es : List (Expr α)} (hb : b.Consistent)
    (h : b' ∈ stages b es) : b'.Consistent := by
  induction es generalizing b with
  | nil =>
    obtain rfl := List.mem_singleton.mp h
    exact hb
  | cons e es ih =>
    rcases List.mem_cons.mp h with rfl | h
    · exact hb
    · exact ih (consistent_attempt hb e) h

theorem pairwise_stages (b : CodeBuilder α) (es : List (Expr α)) :
    (stages b es).Pairwise Extends := by
  induction es generalizing b with
  | nil => exact List.pairwise_singleton _ b
  | cons e es ih =>
    rw [stages_cons, List.pairwise_cons]
    constructor
    · intro b' h
      have hmem : b' ∈ stages b (e :: es) := List.mem_cons_of_mem b h
      exact extends_of_mem_stages hmem
    · exact ih _

/-- Two operands that have been compiled have left two values, so none is taken off the height that is not there. -/
theorem height_of_run_two {b b' : CodeBuilder α} {l r : Expr α}
    (h : (do compile l; compile r : Build α Unit).run b = .ok () b') : b'.height = b.height + 2 := by
  rw [EStateM.run_bind] at h
  cases hrun : (compile l).run b with
  | error error b₁ =>
    rw [hrun] at h
    cases h
  | ok _ b₁ =>
    rw [hrun] at h
    have hleft := (continues_compile l b).height b₁ hrun
    have hright := (continues_compile r b₁).height b' h
    omega

/-- Through any series of trees, whether they compile or not, the builder describes its own code, no constant stands twice in its pool, and what has been appended stays as it is. Wherever the height is lowered two values are there. -/
theorem stages_consistent (param : Var) (es : List (Expr α)) :
    (∀ b ∈ stages { param } es, b.Consistent ∧ b.pool.toList.Nodup) ∧
      (stages { param } es).Pairwise Extends ∧
      ∀ (b b' : CodeBuilder α) (l r : Expr α),
        (do compile l; compile r : Build α Unit).run b = .ok () b' → b'.height = b.height + 2 := by
  refine ⟨?_, pairwise_stages _ es, fun _ _ _ _ => height_of_run_two⟩
  intro b hb
  have hconsistent := consistent_of_mem_stages (.start param) hb
  exact ⟨hconsistent, hconsistent.nodup⟩

/-- A sum with a free variable on the right leaves its left operand in the code and on the stack. -/
example :
    let x : Var := ⟨0, "x"⟩
    let y : Var := ⟨1, "y"⟩
    (stages { param := x } [.add (.var x) (.var y), .var x] : List (CodeBuilder Binary64)).map
        (fun b => (b.code, b.height)) =
      [(#[], 0), (#[.loadParam], 1), (#[.loadParam, .loadParam], 2)] := by
  decide

end CodeBuilder

end Univariate
