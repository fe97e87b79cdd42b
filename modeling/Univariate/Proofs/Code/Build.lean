import Univariate.Code.Fault
import Univariate.Code.Listing
import Mathlib.Data.List.Basic

/-!
# What the builder appends

Compiling a tree has one of two outcomes. Without a fault in the tree the builder has been extended by the listing of the tree, one value on the stack and the stack that the tree needs on the way; with one, that fault is the error. The induction goes over the tree with the builder left open, because an operand is compiled after whatever has been appended before it. What keeps the parts together is that the pool only grows at its end, so that a constant keeps its place.
-/

namespace Univariate

namespace CodeBuilder

variable {α : Type} [DecidableEq α]

/-! ### The pool -/

theorem mem_addConstant {pool : Array α} {c k : α} : k ∈ addConstant pool c ↔ k ∈ pool ∨ k = c := by
  by_cases h : c ∈ pool
  · rw [addConstant, if_pos h]
    constructor
    · exact Or.inl
    · rintro (hk | rfl)
      · exact hk
      · exact h
  · rw [addConstant, if_neg h, Array.mem_push]

theorem idxOf_addConstant {pool : Array α} {k : α} (c : α) (h : k ∈ pool) :
    (addConstant pool c).idxOf k = pool.idxOf k := by
  by_cases hc : c ∈ pool
  · rw [addConstant, if_pos hc]
  · rw [addConstant, if_neg hc, ← Array.append_singleton, Array.idxOf_append, if_pos h]

theorem idxOf_addConstant_self {pool : Array α} {c : α} (h : c ∉ pool) :
    (addConstant pool c).idxOf c = pool.size := by
  rw [addConstant, if_neg h, ← Array.append_singleton, Array.idxOf_append, if_neg h]
  simp

theorem indexed_start (param : Var) : Indexed ({ param } : CodeBuilder α) := by
  funext c
  exact (if_neg (Array.not_mem_empty c)).symm

/-- A new constant stands behind the others, which keep their places. -/
theorem placesIn_addConstant {pool : Array α} {c : α} (h : c ∉ pool) :
    placesIn (addConstant pool c) = fun k => if k = c then some pool.size else placesIn pool k := by
  funext k
  by_cases hk : k = c
  · subst hk
    rw [placesIn, if_pos (mem_addConstant.mpr (Or.inr rfl)), idxOf_addConstant_self h, if_pos rfl]
  · rw [placesIn, placesIn, if_neg hk]
    by_cases hmem : k ∈ pool
    · rw [if_pos (mem_addConstant.mpr (Or.inl hmem)), if_pos hmem, idxOf_addConstant c hmem]
    · have hout : k ∉ addConstant pool c := by
        rw [mem_addConstant]
        exact not_or.mpr ⟨hmem, hk⟩
      rw [if_neg hout, if_neg hmem]

theorem mem_foldl_addConstant {cs : List α} {pool : Array α} {k : α} :
    k ∈ cs.foldl addConstant pool ↔ k ∈ pool ∨ k ∈ cs := by
  induction cs generalizing pool with
  | nil => simp
  | cons c cs ih => rw [List.foldl_cons, ih, mem_addConstant, List.mem_cons, or_assoc]

theorem idxOf_foldl_addConstant {cs : List α} {pool : Array α} {k : α} (h : k ∈ pool) :
    (cs.foldl addConstant pool).idxOf k = pool.idxOf k := by
  induction cs generalizing pool with
  | nil => rfl
  | cons c cs ih => rw [List.foldl_cons, ih (mem_addConstant.mpr (Or.inl h)), idxOf_addConstant c h]

theorem mem_addConstants {pool : Array α} {e : Expr α} {k : α} :
    k ∈ addConstants pool e ↔ k ∈ pool ∨ k ∈ e.numbers :=
  mem_foldl_addConstant

theorem getElem?_idxOf {pool : Array α} {k : α} (h : k ∈ pool) : pool[pool.idxOf k]? = some k := by
  obtain ⟨pool⟩ := pool
  simpa using List.getElem?_idxOf (by simpa using h)

end CodeBuilder

/-! ### Listings with different places -/

theorem Expr.listing_congr {α : Type} {place place' : α → Nat} {e : Expr α}
    (h : ∀ n ∈ e.numbers, place n = place' n) : e.listing place = e.listing place' := by
  induction e with
  | num n => rw [listing_num, listing_num, h n (by simp)]
  | var v => rfl
  | add l r ihl ihr =>
    rw [listing_add, listing_add, ihl fun n hn => h n (by simp [hn]),
      ihr fun n hn => h n (by simp [hn])]
  | mul l r ihl ihr =>
    rw [listing_mul, listing_mul, ihl fun n hn => h n (by simp [hn]),
      ihr fun n hn => h n (by simp [hn])]
  | call f args ih =>
    have hargs : args.map (listing place) = args.map (listing place') := by
      apply List.map_congr_left
      intro a ha
      apply ih a ha
      intro n hn
      apply h
      rw [numbers_call]
      exact List.mem_flatMap.mpr ⟨a, ha, hn⟩
    rw [listing_call, listing_call, List.flatMap_def, List.flatMap_def, hargs]

/-! ### The steps of the builder -/

namespace CodeBuilder

variable {α : Type}

theorem run_emit (instr : Instr) (b : CodeBuilder α) :
    (emit instr).run b = .ok () { b with code := b.code.push instr } := rfl

theorem run_lower (b : CodeBuilder α) : lower.run b = .ok () { b with height := b.height - 1 } := rfl

theorem run_raise_of_room {b : CodeBuilder α} (h : b.height < stackLimit) :
    raise.run b = .ok () { b with height := b.height + 1, peak := max b.peak (b.height + 1) } := by
  have hroom : ¬ b.height + 1 > stackLimit := by omega
  simp [raise, hroom]

theorem run_raise_of_full {b : CodeBuilder α} (h : ¬ b.height < stackLimit) :
    raise.run b =
      .error (.stackOverflow (b.height + 1) stackLimit) { b with height := b.height + 1 } := by
  have hfull : b.height + 1 > stackLimit := by omega
  simp [raise, hfull]

/-- A leaf is one instruction that puts a value onto the stack. -/
theorem run_leaf_of_room {b : CodeBuilder α} (instr : Instr) (h : b.height < stackLimit) :
    (do emit instr; raise : Build α Unit).run b =
      .ok () { b with
        code := b.code.push instr
        height := b.height + 1
        peak := max b.peak (b.height + 1) } := by
  rw [EStateM.run_bind, run_emit]
  exact run_raise_of_room h

/-- Without room for its value a leaf is emitted all the same. -/
theorem run_leaf_of_full {b : CodeBuilder α} (instr : Instr) (h : ¬ b.height < stackLimit) :
    (do emit instr; raise : Build α Unit).run b =
      .error (.stackOverflow (b.height + 1) stackLimit)
        { b with code := b.code.push instr, height := b.height + 1 } := by
  rw [EStateM.run_bind, run_emit]
  exact run_raise_of_full h

variable [DecidableEq α]

def withConstant (b : CodeBuilder α) (c : α) : CodeBuilder α :=
  { b with pool := addConstant b.pool c, places := placesIn (addConstant b.pool c) }

theorem run_intern (c : α) {b : CodeBuilder α} (hb : b.Indexed) :
    (intern c).run b = .ok ((addConstant b.pool c).idxOf c) (b.withConstant c) := by
  rw [intern, EStateM.run_modifyGet]
  by_cases hc : c ∈ b.pool
  · have hplace : b.places c = some (b.pool.idxOf c) := by
      rw [hb]
      exact if_pos hc
    have hsame : b.withConstant c = b := by
      rw [withConstant, addConstant, if_pos hc, ← hb]
    simp only [hplace, hsame]
    rw [addConstant, if_pos hc]
  · have hplace : b.places c = none := by
      rw [hb]
      exact if_neg hc
    simp only [hplace, idxOf_addConstant_self hc]
    rw [withConstant, placesIn_addConstant hc, addConstant, if_neg hc, ← hb]

/-! ### Whole trees -/

private theorem append_assoc (code : Array Instr) (instrs instrs' : List Instr) :
    code ++ instrs ++ instrs' = code ++ (instrs ++ instrs') := by
  apply Array.toList_inj.mp
  simp

private theorem push_append (code : Array Instr) (instrs : List Instr) (instr : Instr) :
    (code ++ instrs).push instr = code ++ (instrs ++ [instr]) := by
  apply Array.toList_inj.mp
  simp

/-- Operands whose code is joined by an instruction that takes two values off the stack. -/
theorem append_join (b : CodeBuilder α) {l r e : Expr α} {instr : Instr}
    (hnumbers : e.numbers = l.numbers ++ r.numbers)
    (hlisting : ∀ place, e.listing place = l.listing place ++ r.listing place ++ [instr])
    (hneed : e.stackNeed = max l.stackNeed (r.stackNeed + 1)) :
    (do lower; emit instr : Build α Unit).run ((b.append l).append r) = .ok () (b.append e) := by
  have hpool : addConstants (addConstants b.pool l) r = addConstants b.pool e := by
    rw [addConstants, addConstants, addConstants, hnumbers, List.foldl_append]
  have hl : l.listing (addConstants b.pool l).idxOf = l.listing (addConstants b.pool e).idxOf := by
    apply Expr.listing_congr
    intro n hn
    rw [← hpool]
    exact (idxOf_foldl_addConstant (mem_addConstants.mpr (Or.inr hn))).symm
  have hpeak : max (max b.peak (b.height + l.stackNeed)) (b.height + 1 + r.stackNeed) =
      max b.peak (b.height + e.stackNeed) := by omega
  rw [EStateM.run_bind, run_lower]
  simp only [run_emit, append, hpool, hl, hlisting, hpeak, push_append, append_assoc,
    List.append_assoc, Nat.add_sub_cancel]

/-- A tree whose code is that of its operand and an instruction that replaces the top of the stack. -/
theorem append_replace (b : CodeBuilder α) {u e : Expr α} {instr : Instr}
    (hnumbers : e.numbers = u.numbers)
    (hlisting : ∀ place, e.listing place = u.listing place ++ [instr])
    (hneed : e.stackNeed = u.stackNeed) :
    (emit instr).run (b.append u) = .ok () (b.append e) := by
  have hpool : addConstants b.pool u = addConstants b.pool e := by
    rw [addConstants, addConstants, hnumbers]
  simp only [run_emit, append, hpool, hlisting, hneed, push_append]

theorem run_compile_num (n : α) {b : CodeBuilder α} (hb : b.Indexed) :
    (compile (.num n)).run b =
      (do emit (.loadConst ((addConstant b.pool n).idxOf n)); raise : Build α Unit).run
        (b.withConstant n) := by
  rw [compile, EStateM.run_bind, run_intern n hb]

theorem run_compile_var {w : Var} {b : CodeBuilder α} (h : (w == b.param) = true) :
    (compile (.var w)).run b = (do emit .loadParam; raise : Build α Unit).run b := by
  rw [compile, EStateM.run_bind, EStateM.run_get]
  simp [h]

theorem run_compile_var_of_free {w : Var} {b : CodeBuilder α} (h : (w == b.param) = false) :
    (compile (.var w)).run b = .error (.unboundVariable w.name) b := by
  rw [compile, EStateM.run_bind, EStateM.run_get]
  simp [h]

theorem run_compile_two {l r : Expr α} {b : CodeBuilder α} (rest : Build α Unit)
    (hl : (compile l).run b = .ok () (b.append l))
    (hr : (compile r).run (b.append l) = .ok () ((b.append l).append r)) :
    (do compile l; compile r; rest : Build α Unit).run b = rest.run ((b.append l).append r) := by
  rw [EStateM.run_bind, hl]
  dsimp only
  rw [EStateM.run_bind, hr]

theorem run_compile_of_sound {e : Expr α} {b : CodeBuilder α} (hb : b.Indexed)
    (h : e.fault? b.param b.height = none) : (compile e).run b = .ok () (b.append e) := by
  -- The builder is left open: a second operand is compiled after the first, with the stack one higher.
  induction e using Expr.arityInduction generalizing b with
  | num n =>
    rw [Expr.fault?_num, Expr.overflow?_eq_none_iff] at h
    rw [run_compile_num n hb, run_leaf_of_room]
    · simp [append, addConstants, withConstant]
    · exact h
  | var w =>
    rw [Expr.fault?_var] at h
    split at h
    case isTrue hw =>
      rw [run_compile_var hw, run_leaf_of_room _ (Expr.overflow?_eq_none_iff.mp h)]
      have hplaces : placesIn b.pool = b.places := hb.symm
      simp [append, addConstants, hplaces]
    case isFalse => simp at h
  | add l r ihl ihr =>
    rw [Expr.fault?_add, Option.or_eq_none_iff] at h
    rw [compile, run_compile_two _ (ihl hb h.1) (ihr rfl h.2)]
    exact append_join b (Expr.numbers_add l r) (fun place => Expr.listing_add place l r)
      (Expr.stackNeed_add l r)
  | mul l r ihl ihr =>
    rw [Expr.fault?_mul, Option.or_eq_none_iff] at h
    rw [compile, run_compile_two _ (ihl hb h.1) (ihr rfl h.2)]
    exact append_join b (Expr.numbers_mul l r) (fun place => Expr.listing_mul place l r)
      (Expr.stackNeed_mul l r)
  | sin u ih =>
    rw [Expr.fault?_sin] at h
    rw [Expr.sin, compile, EStateM.run_bind, ih hb h]
    exact append_replace b (by simp) (by simp [Func.instr]) (Expr.stackNeed_sin u)
  | cos u ih =>
    rw [Expr.fault?_cos] at h
    rw [Expr.cos, compile, EStateM.run_bind, ih hb h]
    exact append_replace b (by simp) (by simp [Func.instr]) (Expr.stackNeed_cos u)
  | pow base exponent ihb ihe =>
    rw [Expr.fault?_pow, Option.or_eq_none_iff] at h
    rw [Expr.pow, compile, run_compile_two _ (ihb hb h.1) (ihe rfl h.2)]
    exact append_join b (by simp) (by simp [Func.instr]) (Expr.stackNeed_pow base exponent)
  | misfit f args hf =>
    rw [Expr.fault?_misfit _ _ hf] at h
    simp at h

theorem run_compile_two_of_fault {l r : Expr α} {b : CodeBuilder α} {error : Error}
    (hb : b.Indexed) (rest : Build α Unit)
    (h : (l.fault? b.param b.height).or (r.fault? b.param (b.height + 1)) = some error)
    (ihl : ∀ {b : CodeBuilder α}, b.Indexed → l.fault? b.param b.height = some error →
      ∃ b', (compile l).run b = .error error b')
    (ihr : ∀ {b : CodeBuilder α}, b.Indexed → r.fault? b.param b.height = some error →
      ∃ b', (compile r).run b = .error error b') :
    ∃ b', (do compile l; compile r; rest : Build α Unit).run b = .error error b' := by
  rcases Option.or_eq_some_iff.mp h with hl | ⟨hl, hr⟩
  · obtain ⟨b', hrun⟩ := ihl hb hl
    rw [EStateM.run_bind, hrun]
    exact ⟨b', rfl⟩
  · obtain ⟨b', hrun⟩ := @ihr (b.append l) rfl hr
    rw [EStateM.run_bind, run_compile_of_sound hb hl]
    dsimp only
    rw [EStateM.run_bind, hrun]
    exact ⟨b', rfl⟩

theorem run_compile_misfit {f : Func} {args : List (Expr α)} (h : args.length ≠ f.arity)
    (b : CodeBuilder α) :
    (compile (.call f args)).run b = .error (f.wrongArgumentCount args.length) b := by
  rw [compile]
  · rfl
  · rintro u rfl rfl
    exact h rfl
  · rintro u rfl rfl
    exact h rfl
  · rintro base exponent rfl rfl
    exact h rfl

theorem run_compile_of_fault {e : Expr α} {b : CodeBuilder α} {error : Error} (hb : b.Indexed)
    (h : e.fault? b.param b.height = some error) : ∃ b', (compile e).run b = .error error b' := by
  induction e using Expr.arityInduction generalizing b with
  | num n =>
    rw [Expr.fault?_num] at h
    obtain ⟨hfull, rfl⟩ := Expr.overflow?_eq_some_iff.mp h
    rw [run_compile_num n hb]
    exact ⟨_, run_leaf_of_full _ hfull⟩
  | var w =>
    rw [Expr.fault?_var] at h
    split at h
    case isTrue hw =>
      obtain ⟨hfull, rfl⟩ := Expr.overflow?_eq_some_iff.mp h
      rw [run_compile_var hw]
      exact ⟨_, run_leaf_of_full _ hfull⟩
    case isFalse hw =>
      obtain rfl := Option.some_inj.mp h
      exact ⟨b, run_compile_var_of_free (by simpa using hw)⟩
  | add l r ihl ihr =>
    rw [Expr.fault?_add] at h
    rw [compile]
    exact run_compile_two_of_fault hb _ h ihl ihr
  | mul l r ihl ihr =>
    rw [Expr.fault?_mul] at h
    rw [compile]
    exact run_compile_two_of_fault hb _ h ihl ihr
  | sin u ih =>
    rw [Expr.fault?_sin] at h
    obtain ⟨b', hrun⟩ := ih hb h
    rw [Expr.sin, compile, EStateM.run_bind, hrun]
    exact ⟨b', rfl⟩
  | cos u ih =>
    rw [Expr.fault?_cos] at h
    obtain ⟨b', hrun⟩ := ih hb h
    rw [Expr.cos, compile, EStateM.run_bind, hrun]
    exact ⟨b', rfl⟩
  | pow base exponent ihb ihe =>
    rw [Expr.fault?_pow] at h
    rw [Expr.pow, compile]
    exact run_compile_two_of_fault hb _ h ihb ihe
  | misfit f args hf =>
    rw [Expr.fault?_misfit _ _ hf] at h
    obtain rfl := Option.some_inj.mp h
    exact ⟨b, run_compile_misfit hf b⟩

end CodeBuilder

theorem Program.getElem?_idxOf_ofTree {α : Type} [DecidableEq α] {e : Expr α} {param : Var} {n : α}
    (hn : n ∈ e.numbers) : (ofTree e param).pool[(ofTree e param).pool.idxOf n]? = some n :=
  CodeBuilder.getElem?_idxOf (CodeBuilder.mem_addConstants.mpr (Or.inr hn))

/-- A tree without a fault compiles to its listing, and the first fault of any other is the error. -/
theorem Program.compile_eq {α : Type} [DecidableEq α] (e : Expr α) (param : Var) :
    Program.compile e param =
      match e.fault? param 0 with
      | none => .ok (Program.ofTree e param)
      | some error => .error error := by
  cases h : e.fault? param 0 with
  | none =>
    have hrun := CodeBuilder.run_compile_of_sound (b := { param }) (CodeBuilder.indexed_start param) h
    have hcode : (#[] : Array Instr) ++ e.listing (CodeBuilder.addConstants #[] e).idxOf =
        (e.listing (CodeBuilder.addConstants #[] e).idxOf).toArray := by
      apply Array.toList_inj.mp
      simp
    simp [Program.compile, CodeBuilder.attempt, hrun, CodeBuilder.append, hcode, Program.ofTree]
  | some error =>
    obtain ⟨b, hrun⟩ := CodeBuilder.run_compile_of_fault (b := { param }) (CodeBuilder.indexed_start param) h
    simp [Program.compile, CodeBuilder.attempt, hrun]

end Univariate
