import Univariate.Dual.Evaluate
import Univariate.Proofs.Code.Renaming
import Univariate.Proofs.Derive.Compiles

/-!
# Names decide nothing

Variables are told apart by their identities. Whatever is done to a tree and a variable is therefore done in the same way to the tree and the variable renamed, by any replacement that keeps variables apart: differentiation gives the renamed derivative, compilation the same code, evaluation the same values. The power rule is the one place where a variable is written into a result, and it takes the variable by which it differentiates, which is renamed like all others. A failure is for the same reason, and its text differs in the names alone.
-/

namespace Univariate

namespace Expr

variable {α : Type}

/-! ### Sums and products -/

theorem rename_foldl_add (ρ : Var → Var) (us : List (Expr α)) (t : Expr α) :
    (us.foldl .add t).rename ρ = (us.map (rename ρ)).foldl .add (t.rename ρ) := by
  induction us generalizing t with
  | nil => rfl
  | cons u us ih => rw [List.foldl_cons, ih, rename_add, List.map_cons, List.foldl_cons]

theorem sum_rename (ρ : Var → Var) {ts : List (Expr α)} {d : Expr α} (h : sum ts = .ok d) :
    sum (ts.map (rename ρ)) = .ok (d.rename ρ) := by
  obtain ⟨t, us, rfl, rfl⟩ := sum_eq_ok_iff.mp h
  rw [rename_foldl_add]
  rfl

theorem ofProduct_rename [Zero α] [Add α] [Literal α] {γ : Type} [Count γ] (ρ : Var → Var) {e : Expr α}
    {tally : FactorTally α γ} (h : FactorTally.ofProduct e = .ok tally) :
    FactorTally.ofProduct (e.rename ρ) = .ok tally := by
  induction e generalizing tally with
  | num n => exact h
  | var v => exact h
  | add l r => cases h
  | mul l r ihl ihr =>
    obtain ⟨s, hs, h⟩ := Error.bind_eq_ok_iff.mp h
    obtain ⟨t, ht, h⟩ := Error.bind_eq_ok_iff.mp h
    rw [rename_mul, FactorTally.ofProduct, ihl hs, ihr ht]
    exact h
  | call f args => cases h

/-! ### Offences -/

theorem below_rename (ρ : Var → Var) (place : Place) (node : Expr α) :
    place.below (node.rename ρ) = place.below node := by
  cases node with
  | call f args =>
    rw [rename_call]
    cases place <;> rfl
  | _ => cases place <;> rfl

variable [Literal α]

theorem rel_offence? (ρ : Renaming) (named : Var → Prop) (place : Place) (node : Expr α) :
    Option.Rel (Error.Renamed α ρ named) (offence? place node) (offence? place (node.rename ρ)) := by
  have hmisplaced : Error.Renamed α ρ named _ _ := .misplaced node
  cases node with
  | num n => cases place <;> exact .none
  | var v => cases place <;> exact .none
  | mul l r => cases place <;> exact .none
  | add l r =>
    cases place with
    | free => exact .none
    | factor => exact .some hmisplaced
    | buried => exact .none
  | call f args =>
    rw [rename_call] at hmisplaced ⊢
    cases place with
    | factor => exact .some hmisplaced
    | buried => exact .none
    | free =>
      by_cases hf : f = .pow
      · subst hf
        exact .some (.same fun name h => by cases h)
      · rw [offence?, offence?, List.length_map]
        · split
          · exact .none
          · exact .some (.same fun name h => by cases h)
        · exact hf
        · exact hf

theorem rel_firstOffence? (ρ : Renaming) (named : Var → Prop) (e : Expr α) :
    Option.Rel (Error.Renamed α ρ named) e.firstOffence? (e.rename ρ).firstOffence? :=
  rel_firstDefect (fun place node _ => below_rename ρ place node) (rel_offence? ρ named) .free e

/-! ### Derivations -/

variable [Zero α] [One α] [Neg α] [Add α] [Sub α] [Mul α] [BEq α]
  {γ : Type} [Count γ] [Counting α γ]

theorem DerivesTo.rename (ρ : Renaming) {v : Var} {e : Expr α} {ts : List (Expr α)}
    (h : DerivesTo v e ts) : DerivesTo (ρ v) (e.rename ρ) (ts.map (rename ρ)) := by
  induction h with
  | num n => exact .num n
  | var w => exact .var (ρ w)
  | add _ _ ihl ihr =>
    rw [List.map_append]
    exact .add ihl ihr
  | mul htally => exact .mul (ofProduct_rename ρ htally)
  | sinVar w => exact .sinVar (ρ w)
  | cosVar w => exact .cosVar (ρ w)
  | @sin u d us hu _ hd ih =>
    have hu' : (u.rename ρ).asVar? = none := by rw [asVar?_rename, hu, Option.map_none]
    exact .sin hu' ih (sum_rename ρ hd)
  | @cos u d us hu _ hd ih =>
    have hu' : (u.rename ρ).asVar? = none := by rw [asVar?_rename, hu, Option.map_none]
    exact .cos hu' ih (sum_rename ρ hd)

end Expr

namespace Limits

variable {α : Type} [Literal α]

theorem rel_refusal? (limits : Limits) (ρ : Renaming) (v : Var) (e : Expr α) :
    Option.Rel (Error.Renamed α ρ fun w => e.stranger? v = some w) (limits.refusal? v e)
      (limits.refusal? (ρ v) (e.rename ρ)) := by
  rw [refusal?, refusal?, Expr.maxDepth_rename, Expr.nodeCount_rename, ← Expr.stranger?_eq_find?,
    ← Expr.stranger?_eq_find?, Expr.stranger?_rename]
  split
  · exact .some (.same fun name h => by cases h)
  split
  · exact .some (.same fun name h => by cases h)
  cases hw : e.stranger? v with
  | some w => exact .some (.unboundVariable rfl)
  | none => exact Expr.rel_firstOffence? ρ _ e

variable [Zero α] [One α] [Neg α] [Add α] [Sub α] [Mul α] [BEq α]
  {γ : Type} [Count γ] [Counting α γ]

/-- Differentiation does not see how variables are named and identified, as long as they are kept apart. -/
theorem corresponds_derive (limits : Limits) (ρ : Renaming) (v : Var) (e : Expr α) :
    Error.Corresponds (Error.Renamed α ρ fun w => e.stranger? v = some w) (fun d d' => d' = d.rename ρ)
      (limits.derive v e).outcome (limits.derive (ρ v) (e.rename ρ)).outcome := by
  rcases Expr.rel_iff.mp (rel_refusal? limits ρ v e) with
    ⟨hnone, _⟩ | ⟨error, error', herror, herror', hrenamed⟩
  · obtain ⟨d, hd⟩ := exists_outcome_derive hnone
    obtain ⟨hdepth, hnodes, hbound, ts, hts, hsum⟩ := outcome_derive_eq_ok_iff.mp hd
    have hd' : (limits.derive (ρ v) (e.rename ρ)).outcome = .ok (d.rename ρ) := by
      rw [outcome_derive_eq_ok_iff, Expr.maxDepth_rename, Expr.nodeCount_rename, Expr.boundBy_rename]
      exact ⟨hdepth, hnodes, hbound, _, hts.rename ρ, Expr.sum_rename ρ hsum⟩
    rw [hd, hd']
    exact .ok rfl
  · rw [outcome_derive_of_refusal herror, outcome_derive_of_refusal herror']
    exact .error hrenamed

variable [Elementary α] [Measured α] [DecidableEq α]

theorem corresponds_differentiate (limits : Limits) (ρ : Renaming) (v : Var) (e : Expr α) :
    Error.Corresponds (Error.Renamed α ρ fun w => e.stranger? v = some w)
      (fun d d' => d'.function = ⟨ρ v, d.function.body.rename ρ⟩ ∧ d.program.Renamed ρ d'.program)
      (limits.differentiate ⟨v, e⟩).outcome (limits.differentiate ⟨ρ v, e.rename ρ⟩).outcome := by
  have h := corresponds_derive limits ρ v e
  rw [outcome_differentiate, outcome_differentiate]
  cases hd : (limits.derive v e).outcome with
  | error error =>
    rw [hd] at h
    generalize (limits.derive (ρ v) (e.rename ρ)).outcome = second at h
    cases h with
    | error hrenamed => exact .error hrenamed
  | ok d =>
    obtain ⟨hbound, hfit, _⟩ := derive_wellFormed hd
    have hbound' : (d.rename ρ).boundBy (ρ v) = true := by rw [Expr.boundBy_rename, hbound]
    have hfit' : (d.rename ρ).callsFit = true := by rw [Expr.callsFit_rename, hfit]
    rw [hd] at h
    generalize (limits.derive (ρ v) (e.rename ρ)).outcome = second at h
    cases h with
    | ok hd' =>
      subst hd'
      change Error.Corresponds _ _ (Program.compile d v >>= _) (Program.compile (d.rename ρ) (ρ v) >>= _)
      rw [Program.compile_of_wellFormed hbound hfit, Program.compile_of_wellFormed hbound' hfit',
        Expr.stackNeed_rename]
      split
      · exact .ok ⟨rfl, Program.renamed_ofTree ρ d v⟩
      · exact .error (.same fun name h => by cases h)

/-- Whatever is computed from a tree and a variable is computed in the same way from the tree and the variable renamed. -/
theorem renaming_commutes {β : Type} [Zero β] [One β] [Neg β] [Add β] [Sub β] [Mul β] [Div β] [BEq β]
    [Elementary β] [Logarithm β] (ρ : Renaming) (limits : Limits) (literal : α → β) (e : Expr α)
    (v : Var) :
    let Renamed := Error.Renamed α ρ fun w => e.stranger? v = some w
    let e' := e.rename ρ
    Error.Corresponds Renamed (fun d d' => d' = d.rename ρ) (limits.derive v e).outcome
        (limits.derive (ρ v) e').outcome ∧
      Error.Corresponds Renamed
        (fun d d' => d'.function = ⟨ρ v, d.function.body.rename ρ⟩ ∧ d.program.Renamed ρ d'.program)
        (limits.differentiate ⟨v, e⟩).outcome (limits.differentiate ⟨ρ v, e'⟩).outcome ∧
      Error.Corresponds Renamed (Program.Renamed ρ) (Program.compile e v) (Program.compile e' (ρ v)) ∧
      (∀ x, Error.Corresponds Renamed Eq (e.evaluate v x) (e'.evaluate (ρ v) x)) ∧
      ∀ x, Error.Corresponds Renamed Eq (e.evaluateDualAs literal v x)
        (e'.evaluateDualAs literal (ρ v) x) :=
  ⟨corresponds_derive limits ρ v e, corresponds_differentiate limits ρ v e,
    Program.corresponds_compile ρ e v, fun x => Expr.corresponds_evaluateAs ρ id v x e,
    fun x => Expr.corresponds_evaluateAs ρ (fun n => Dual.constant (literal n)) v (Dual.varying x) e⟩

/-- Another variable stays another one under the same name. -/
example :
    let x : Var := ⟨0, "x"⟩
    let y : Var := ⟨1, "y"⟩
    let ρ := Renaming.allNamed "z"
    (derive ⟨5, 5⟩ (ρ x) ((Expr.var y : Expr Binary64).sin.rename ρ)).outcome =
      .error (.unboundVariable "z") := rfl

end Limits

end Univariate
