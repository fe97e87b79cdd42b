import Univariate.Proofs.Code.Session

/-!
# Overflow is final

A load whose value finds no room is an error, but the height has been raised by then and nothing lowers it again: an operator is emitted only after its operands, and a stack that is too high has no room for the first load of any operand. So from the first overflow on the builder stays above the limit. It gets one value higher with each further overflow and with nothing else, hence its height above the limit counts the overflows there have been.
-/

namespace Univariate

namespace CodeBuilder

variable {α : Type}

def excess (b : CodeBuilder α) : Nat := b.height - stackLimit

theorem excess_eq_zero {b : CodeBuilder α} (h : b.height ≤ stackLimit) : b.excess = 0 :=
  Nat.sub_eq_zero_of_le h

/-! ### One tree -/

/-- How a computation ends that is to leave one more value on the stack. A success stays within the limit, an overflow is one value more above it, and any other error leaves what is above the limit alone. -/
inductive Climbs (b : CodeBuilder α) : EStateM.Result Error (CodeBuilder α) Unit → Prop where
  | ok {b' : CodeBuilder α} : b'.param = b.param → b'.height = b.height + 1 →
    b'.height ≤ stackLimit → Climbs b (.ok () b')
  | overflow {b' : CodeBuilder α} {depth : Nat} : b'.param = b.param →
    b'.excess = b.excess + 1 → depth = stackLimit + b'.excess →
    Climbs b (.error (.stackOverflow depth stackLimit) b')
  | other {b' : CodeBuilder α} {error : Error} : b'.param = b.param → b'.excess = b.excess →
    (∀ depth limit, error ≠ .stackOverflow depth limit) → Climbs b (.error error b')

namespace Climbs

variable {b b' b'' : CodeBuilder α}

theorem error_after {error : Error} (h : b'.Climbs (.error error b'')) (hparam : b'.param = b.param)
    (hexcess : b'.excess = b.excess) : b.Climbs (.error error b'') := by
  cases h with
  | overflow hparam' hexcess' hdepth =>
    rw [hexcess] at hexcess'
    exact .overflow (hparam'.trans hparam) hexcess' hdepth
  | other hparam' hexcess' hother =>
    exact .other (hparam'.trans hparam) (hexcess'.trans hexcess) hother

theorem of_same {result : EStateM.Result Error (CodeBuilder α) Unit} (h : b'.Climbs result)
    (hparam : b'.param = b.param) (hheight : b'.height = b.height) : b.Climbs result := by
  cases result with
  | ok _ b'' =>
    cases h with
    | ok hparam' hheight' hroom =>
      rw [hheight] at hheight'
      exact .ok (hparam'.trans hparam) hheight' hroom
  | error error b'' => exact h.error_after hparam (congrArg (· - stackLimit) hheight)

end Climbs

theorem climbs_load (b : CodeBuilder α) (instr : Instr) :
    b.Climbs ((do emit instr; raise : Build α Unit).run b) := by
  by_cases hroom : b.height < stackLimit
  · rw [run_leaf_of_room instr hroom]
    exact .ok rfl rfl hroom
  · rw [run_leaf_of_full instr hroom]
    refine .overflow rfl ?_ ?_
    · simp only [excess]
      omega
    · simp only [excess]
      omega

variable [DecidableEq α]

theorem climbs_num (n : α) (b : CodeBuilder α) : b.Climbs ((compile (.num n)).run b) := by
  rw [compile, EStateM.run_bind, intern, EStateM.run_modifyGet]
  cases b.places n with
  | some index => exact climbs_load b _
  | none =>
    -- A new constant changes neither the height nor the bound variable.
    exact (climbs_load (b.pushConstant n) (.loadConst b.pool.size)).of_same rfl rfl

theorem stepwise_climbs : Stepwise (@Climbs α) where
  num := climbs_num
  param b := climbs_load b .loadParam
  fail _ hother := .other rfl rfl hother
  stop := by
    intro b b₁ b₂ error hleft hright
    cases hleft with
    | ok hparam hheight hroom =>
      -- The left operand has found room, so there was no excess before it and there is none after it.
      have hbelow : b.height ≤ stackLimit := by
        rw [hheight] at hroom
        exact Nat.le_of_succ_le hroom
      exact hright.error_after hparam ((excess_eq_zero hroom).trans (excess_eq_zero hbelow).symm)
  join := by
    intro b b₁ b₂ instr _ _ hleft hright
    cases hleft with
    | ok hparam hheight hroom =>
      cases hright with
      | ok hparam' hheight' hroom' =>
        refine .ok (hparam'.trans hparam) ?_ ?_
        · dsimp only
          omega
        · dsimp only
          omega
  replace := by
    intro b b₁ instr _ _ harg
    cases harg with
    | ok hparam hheight hroom => exact .ok hparam hheight hroom

theorem climbs_compile (e : Expr α) (b : CodeBuilder α) : b.Climbs ((compile e).run b) :=
  stepwise_climbs.compile e b

/-! ### One tree after the other -/

def overflow? : Except Error Unit → Option (Nat × Nat)
  | .error (.stackOverflow depth limit) => some (depth, limit)
  | _ => none

theorem overflow?_error_of_ne {error : Error} (h : ∀ depth limit, error ≠ .stackOverflow depth limit) :
    overflow? (.error error) = none := by
  cases error with
  | stackOverflow depth limit => exact absurd rfl (h depth limit)
  | _ => rfl

/-- A success needs a builder that is within the limit and leaves one, an overflow adds a value above the limit and reports how many there are, and other errors change nothing there. -/
theorem attempt_cases (e : Expr α) (b : CodeBuilder α) :
    ((attempt e b).1 = .ok () ∧ b.excess = 0 ∧ (attempt e b).2.excess = 0) ∨
      ((attempt e b).1 = .error (.stackOverflow (stackLimit + (b.excess + 1)) stackLimit) ∧
        (attempt e b).2.excess = b.excess + 1) ∨
      (overflow? (attempt e b).1 = none ∧ (attempt e b).1 ≠ .ok () ∧
        (attempt e b).2.excess = b.excess) := by
  have hclimbs := climbs_compile e b
  rw [attempt]
  cases hrun : (compile e).run b with
  | ok _ b' =>
    rw [hrun] at hclimbs
    cases hclimbs with
    | ok _ hheight hroom =>
      left
      refine ⟨rfl, ?_, excess_eq_zero hroom⟩
      rw [hheight] at hroom
      exact excess_eq_zero (Nat.le_of_succ_le hroom)
  | error error b' =>
    rw [hrun] at hclimbs
    right
    cases hclimbs with
    | overflow _ hexcess hdepth =>
      left
      refine ⟨?_, hexcess⟩
      rw [hdepth, hexcess]
    | other _ hexcess hother =>
      right
      refine ⟨overflow?_error_of_ne hother, ?_, hexcess⟩
      rintro ⟨⟩

theorem param_attempt (e : Expr α) (b : CodeBuilder α) : (attempt e b).2.param = b.param := by
  have hclimbs := climbs_compile e b
  rw [attempt_snd]
  generalize (compile e).run b = result at hclimbs
  cases hclimbs with
  | ok hparam => exact hparam
  | overflow hparam => exact hparam
  | other hparam => exact hparam

theorem param_of_mem_stages {b b' : CodeBuilder α} {es : List (Expr α)} (h : b' ∈ stages b es) :
    b'.param = b.param := by
  induction es generalizing b with
  | nil =>
    obtain rfl := List.mem_singleton.mp h
    rfl
  | cons e es ih =>
    rcases List.mem_cons.mp h with rfl | h
    · rfl
    · exact (ih h).trans (param_attempt e b)

theorem outcomes_cons (b : CodeBuilder α) (e : Expr α) (es : List (Expr α)) :
    outcomes b (e :: es) = (attempt e b).1 :: outcomes (attempt e b).2 es := rfl

/-- The overflows report one value more each time. -/
theorem depth_of_overflow {b : CodeBuilder α} {es : List (Expr α)} {k depth limit : Nat}
    (h : ((outcomes b es).filterMap overflow?)[k]? = some (depth, limit)) :
    depth = stackLimit + (b.excess + (k + 1)) ∧ limit = stackLimit := by
  induction es generalizing b k with
  | nil => cases h
  | cons e es ih =>
    rw [outcomes_cons] at h
    rcases attempt_cases e b with ⟨hok, hbefore, hafter⟩ | ⟨hover, hafter⟩ | ⟨hother, -, hafter⟩
    · rw [hok, List.filterMap_cons_none rfl] at h
      rw [hbefore, ← hafter]
      exact ih h
    · rw [hover, List.filterMap_cons_some (f := overflow?) rfl] at h
      cases k with
      | zero =>
        cases h
        exact ⟨rfl, rfl⟩
      | succ k =>
        obtain ⟨hdepth, hlimit⟩ := ih h
        refine ⟨?_, hlimit⟩
        rw [hdepth, hafter, Nat.add_assoc, Nat.add_comm 1]
    · rw [List.filterMap_cons_none hother] at h
      rw [← hafter]
      exact ih h

/-- The limit is reached by leaving one value after the other on the stack. -/
example :
    let x : Var := ⟨0, "x"⟩
    let es : List (Expr Binary64) := List.replicate 1026 (.var x)
    (outcomes { param := x } es).filterMap overflow? = [(1025, 1024), (1026, 1024)] := by
  decide +kernel

theorem ne_ok_of_mem_outcomes {b : CodeBuilder α} {es : List (Expr α)} (hb : 0 < b.excess)
    {outcome : Except Error Unit} (h : outcome ∈ outcomes b es) : outcome ≠ .ok () := by
  induction es generalizing b with
  | nil => cases h
  | cons e es ih =>
    rw [outcomes_cons, List.mem_cons] at h
    rcases attempt_cases e b with ⟨-, hbefore, -⟩ | ⟨hover, hafter⟩ | ⟨-, hne, hafter⟩
    · exact absurd hbefore (Nat.ne_of_gt hb)
    · rcases h with rfl | h
      · rw [hover]
        rintro ⟨⟩
      · refine ih ?_ h
        rw [hafter]
        exact Nat.succ_pos _
    · rcases h with rfl | h
      · exact hne
      · rw [← hafter] at hb
        exact ih hb h

theorem pairwise_outcomes (b : CodeBuilder α) (es : List (Expr α)) :
    (outcomes b es).Pairwise fun outcome later =>
      (overflow? outcome).isSome = true → later ≠ .ok () := by
  induction es generalizing b with
  | nil => exact List.Pairwise.nil
  | cons e es ih =>
    rw [outcomes_cons, List.pairwise_cons]
    refine ⟨?_, ih _⟩
    intro later hlater hover
    rcases attempt_cases e b with ⟨hok, -, -⟩ | ⟨-, hafter⟩ | ⟨hother, -, -⟩
    · rw [hok] at hover
      cases hover
    · refine ne_ok_of_mem_outcomes ?_ hlater
      rw [hafter]
      exact Nat.succ_pos _
    · rw [hother] at hover
      cases hover

end CodeBuilder

end Univariate
