import Univariate.Proofs.Code.Overflow

/-!
# Builders that are used again

What a tree appends does not depend on what the builder has been through. The instructions run on any stack, so neither the values that earlier trees have left there nor those of half a failed tree matter; and they read their constants at places that keep them, since the pool only grows at its end. So a success means the value of the tree on top, with the pool as it is then or at any later time, and several successes mean their values one above the other.
-/

namespace Univariate

namespace Instr

variable {α : Type} [Add α] [Mul α] [Elementary α] [Measured α]

/-- Run on any stack, the code puts the values on top of it, the last one highest, and misses nothing on the way. -/
def Leaves (pool : Array α) (x : α) (instrs : List Instr) (ys : List α) : Prop :=
  ∀ stack, instrs.foldlM (step? pool x) stack = some (stack ++ ys) ∧
    instrs.foldl (step pool x) stack = stack ++ ys

variable {pool : Array α} {x y : α}

theorem Leaves.of_stopping {instrs : List Instr} {ys : List α}
    (h : ∀ stack, instrs.foldlM (step? pool x) stack = some (stack ++ ys)) :
    Leaves pool x instrs ys :=
  fun stack => ⟨h stack, foldl_step (h stack)⟩

theorem Leaves.nil (pool : Array α) (x : α) : Leaves pool x [] [] := by
  intro stack
  simp

theorem Leaves.append {instrs instrs' : List Instr} {ys ys' : List α} (h : Leaves pool x instrs ys)
    (h' : Leaves pool x instrs' ys') : Leaves pool x (instrs ++ instrs') (ys ++ ys') := by
  apply of_stopping
  intro stack
  rw [List.foldlM_append, (h stack).1]
  change instrs'.foldlM (step? pool x) (stack ++ ys) = some (stack ++ (ys ++ ys'))
  rw [(h' (stack ++ ys)).1, Option.some_inj, ← Array.toList_inj]
  simp

theorem Computes.leaves {instrs : List Instr} {need : Nat} (h : Computes pool x instrs y need) :
    Leaves pool x instrs [y] := by
  apply Leaves.of_stopping
  intro stack
  rw [h.run]
  simp

end Instr

namespace CodeBuilder

variable {α : Type} [DecidableEq α] [Add α] [Mul α] [Elementary α] {b b' b'' : CodeBuilder α}
  {e : Expr α} {es : List (Expr α)}

/-! ### One success -/

theorem Consistent.indexed (h : b.Consistent) : b.Indexed := by
  funext c
  rw [placesIn]
  split
  case isTrue hc => exact (h.places c _).mpr (getElem?_idxOf hc)
  case isFalse hc =>
    cases hplace : b.places c with
    | none => rfl
    | some index => exact absurd (Array.mem_of_getElem? ((h.places c index).mp hplace)) hc

theorem attempt_eq_ok (hb : b.Consistent) (h : attempt e b = (.ok (), b')) :
    e.fault? b.param b.height = none ∧ b' = b.append e := by
  rw [attempt] at h
  cases hfault : e.fault? b.param b.height with
  | none =>
    rw [run_compile_of_sound hb.indexed hfault] at h
    exact ⟨rfl, (Prod.mk.inj h).2.symm⟩
  | some error =>
    obtain ⟨b₁, hrun⟩ := run_compile_of_fault hb.indexed hfault
    rw [hrun] at h
    cases h

/-- The code of a tree finds its constants in every pool that the one of the builder grows into. -/
theorem computes_listing {pool : Array α} {param : Var} {x y : α}
    (hpool : (b.append e).pool.toList <+: pool.toList) (hy : e.evaluate param x = .ok y) :
    Instr.Computes pool x (e.listing (b.append e).pool.idxOf) y e.stackNeed := by
  apply Instr.Computes.of_evaluateAs hy
  intro n hn
  have hmem : n ∈ (b.append e).pool := mem_addConstants.mpr (Or.inr hn)
  exact Instr.getElem?_of_prefix hpool (getElem?_idxOf hmem)

variable [Measured α]

theorem leaves_of_attempt (hb : b.Consistent) (h : attempt e b = (.ok (), b')) :
    ∃ instrs, b'.code.toList = b.code.toList ++ instrs ∧
      ∀ pool : Array α, b'.pool.toList <+: pool.toList →
        ∀ x, ∃ y, e.evaluate b.param x = .ok y ∧ Instr.Leaves pool x instrs [y] := by
  obtain ⟨hfault, rfl⟩ := attempt_eq_ok hb h
  obtain ⟨hbound, hfit, _⟩ := Expr.fault?_eq_none_iff.mp hfault
  refine ⟨e.listing (b.append e).pool.idxOf, ?_, ?_⟩
  · simp [append]
  · intro pool hpool x
    obtain ⟨y, hy⟩ := Expr.exists_evaluateAs id x hbound hfit
    exact ⟨y, hy, (computes_listing hpool hy).leaves⟩

/-! ### Successes only -/

theorem leaves_of_outcomes (hb : b.Consistent) (hok : ∀ outcome ∈ outcomes b es, outcome = .ok ())
    (hlast : (stages b es).getLast? = some b') :
    ∃ instrs, b'.code.toList = b.code.toList ++ instrs ∧
      ∀ x, ∃ ys, es.mapM (fun e => e.evaluate b.param x) = .ok ys ∧
        Instr.Leaves b'.pool x instrs ys := by
  induction es generalizing b with
  | nil =>
    obtain rfl := Option.some.inj hlast
    refine ⟨[], (List.append_nil _).symm, ?_⟩
    exact fun x => ⟨[], rfl, .nil _ x⟩
  | cons e es ih =>
    rw [outcomes_cons, List.forall_mem_cons] at hok
    rw [getLast?_stages_cons] at hlast
    obtain ⟨hhead, htail⟩ := hok
    have hattempt : attempt e b = (.ok (), (attempt e b).2) := Prod.ext hhead rfl
    obtain ⟨instrs, hcode, hleaves⟩ := leaves_of_attempt hb hattempt
    obtain ⟨instrs', hcode', hleaves'⟩ := ih (consistent_attempt hb e) htail hlast
    refine ⟨instrs ++ instrs', ?_, ?_⟩
    · rw [hcode', hcode, List.append_assoc]
    · intro x
      -- The first tree is run with the pool of the whole, which its own pool has grown into.
      have hpool := (extends_of_mem_stages (List.mem_of_getLast? hlast)).pool
      obtain ⟨y, hy, hrun⟩ := hleaves _ hpool x
      obtain ⟨ys, hys, hrun'⟩ := hleaves' x
      refine ⟨y :: ys, ?_, hrun.append hrun'⟩
      rw [param_attempt] at hys
      rw [List.mapM_cons, hy, hys]
      rfl

/-- However many trees a builder has been given, and whatever has become of them, a success appends code that puts the value of the tree on top of any stack, also when it is run with the pool of a later time. After successes only, the whole code leaves the values of all trees in order. An overflow is followed by no success, and the overflows report heights above the limit that count them. -/
theorem stages_compute_until_overflow (param : Var) (es : List (Expr α)) :
    (∀ b ∈ stages { param } es, ∀ e b', attempt e b = (.ok (), b') →
      ∃ instrs, b'.code.toList = b.code.toList ++ instrs ∧
        ∀ later, ∀ b'' ∈ stages b' later, ∀ x, ∃ y, e.evaluate param x = .ok y ∧
          Instr.Leaves b''.pool x instrs [y]) ∧
      ((∀ outcome ∈ outcomes { param } es, outcome = .ok ()) →
        ∀ b, (stages { param } es).getLast? = some b →
          ∀ x, ∃ ys, es.mapM (fun e => e.evaluate param x) = .ok ys ∧
            Instr.Leaves b.pool x b.code.toList ys) ∧
      ((outcomes { param } es).Pairwise fun outcome later =>
        (overflow? outcome).isSome = true → later ≠ .ok ()) ∧
      ∀ k depth limit, ((outcomes { param } es).filterMap overflow?)[k]? = some (depth, limit) →
        depth = 1024 + (k + 1) ∧ limit = 1024 := by
  have hstart : Consistent ({ param } : CodeBuilder α) := .start param
  refine ⟨?_, ?_, pairwise_outcomes _ es, ?_⟩
  · intro b hb e b' h
    obtain ⟨instrs, hcode, hleaves⟩ := leaves_of_attempt (consistent_of_mem_stages hstart hb) h
    refine ⟨instrs, hcode, ?_⟩
    intro later b'' hb'' x
    obtain ⟨y, hy, hrun⟩ := hleaves _ (extends_of_mem_stages hb'').pool x
    rw [param_of_mem_stages hb] at hy
    exact ⟨y, hy, hrun⟩
  · intro hok b hlast x
    obtain ⟨instrs, hcode, hleaves⟩ := leaves_of_outcomes hstart hok hlast
    rw [hcode]
    exact hleaves x
  · intro k depth limit h
    obtain ⟨hdepth, hlimit⟩ := depth_of_overflow h
    refine ⟨?_, hlimit⟩
    rw [hdepth, excess, Nat.zero_sub, Nat.zero_add, stackLimit]

/-- A sum with a free variable on the right fails and leaves its left operand on the stack, and yet the next tree is compiled as it should be. -/
theorem stages_compute_until_overflow_after_failure :
    let x : Var := ⟨0, "x"⟩
    let y : Var := ⟨1, "y"⟩
    let failing : Expr Binary64 := .add (.var x) (.var y)
    let e : Expr Binary64 := .mul (.num 1) (.var x)
    let b := (attempt failing { param := x }).2
    let b' := (attempt e b).2
    (attempt failing { param := x }).1 = .error (.unboundVariable "y") ∧
      b.height = 1 ∧ attempt e b = (.ok (), b') ∧
      ∃ instrs, b'.code.toList = b.code.toList ++ instrs ∧
        ∀ later, ∀ b'' ∈ stages b' later, ∀ a, ∃ c, e.evaluate x a = .ok c ∧
          Instr.Leaves b''.pool a instrs [c] := by
  intro x y failing e b b'
  have hattempt : attempt e b = (.ok (), b') := rfl
  have hmem : b ∈ stages { param := x } [failing] := by simp [stages, attempts, b]
  exact ⟨rfl, rfl, hattempt, (stages_compute_until_overflow x [failing]).1 b hmem e b' hattempt⟩

end CodeBuilder

end Univariate
