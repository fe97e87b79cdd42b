import Univariate.Expr.Rename
import Univariate.Proofs.Code.Run
import Mathlib.Data.List.Induction

/-!
# The layout of programs

Where a constant of a tree is put depends on everything that has been compiled before, but in the end the pool is plain: it holds the numbers of the tree in the order in which they first occur, each once. Bits decide what is the same number, so zeros of different sign have places of their own.

Nothing of the tree is lost in its program. Scalars may be of any type, and with trees for scalars an operation puts its operands under a new root. So the code of a tree, run on trees, builds the tree again, with the constants of the pool and the bound variable for its leaves.
-/

namespace Univariate

/-! ### Trees as scalars -/

/-- The operations on trees put their operands under a new root. -/
instance {α : Type} : Elementary (Expr α) := ⟨Expr.sin, Expr.cos, Expr.pow⟩

namespace Expr

variable {α : Type} {e : Expr α} {v : Var}

/-- Evaluated at a variable a tree has itself for its value, with that variable for its own. -/
theorem evaluateAs_num (hbound : e.boundBy v = true) (hfit : e.callsFit = true) :
    e.evaluateAs num v (var v) = .ok (e.rename fun _ => v) := by
  induction e using arityInduction with
  | num n => rfl
  | var w => exact evaluateAs_var (by simpa using hbound)
  | add l r ihl ihr =>
    rw [boundBy_add, Bool.and_eq_true] at hbound
    rw [callsFit_add, Bool.and_eq_true] at hfit
    exact evaluateAs_add (ihl hbound.1 hfit.1) (ihr hbound.2 hfit.2)
  | mul l r ihl ihr =>
    rw [boundBy_mul, Bool.and_eq_true] at hbound
    rw [callsFit_mul, Bool.and_eq_true] at hfit
    exact evaluateAs_mul (ihl hbound.1 hfit.1) (ihr hbound.2 hfit.2)
  | sin u ih => exact evaluateAs_sin (ih (by simpa using hbound) (by simpa using hfit))
  | cos u ih => exact evaluateAs_cos (ih (by simpa using hbound) (by simpa using hfit))
  | pow base exponent ihb ihe =>
    rw [boundBy_pow, Bool.and_eq_true] at hbound
    rw [callsFit_pow, Bool.and_eq_true] at hfit
    exact evaluateAs_pow (ihb hbound.1 hfit.1) (ihe hbound.2 hfit.2)
  | misfit f args hf => simp [hf] at hfit

theorem rename_eq_self {ρ : Var → Var} (h : ∀ w ∈ e.occurrences, ρ w = w) : e.rename ρ = e := by
  induction e with
  | num n => rfl
  | var w => rw [rename_var, h w (List.mem_singleton_self w)]
  | add l r ihl ihr =>
    rw [occurrences_add, List.forall_mem_append] at h
    rw [rename_add, ihl h.1, ihr h.2]
  | mul l r ihl ihr =>
    rw [occurrences_mul, List.forall_mem_append] at h
    rw [rename_mul, ihl h.1, ihr h.2]
  | call f args ih =>
    rw [occurrences_call] at h
    have hargs : args.map (rename ρ) = args := by
      rw [List.map_congr_left (g := id), List.map_id]
      intro a ha
      exact ih a ha fun w hw => h w (List.mem_flatMap.mpr ⟨a, ha, hw⟩)
    rw [rename_call, hargs]

/-- Where the identity of a variable determines its name, putting the bound variable for itself changes nothing. -/
theorem rename_eq_self_of_boundBy (hbound : e.boundBy v = true)
    (hnames : ∀ w ∈ e.occurrences, (w == v) = true → w.name = v.name) :
    (e.rename fun _ => v) = e := by
  apply rename_eq_self
  intro w hw
  have hid : (w == v) = true := List.all_eq_true.mp hbound w hw
  have hname := hnames w hw hid
  rw [Var.beq_iff] at hid
  cases v
  cases w
  cases hid
  cases hname
  rfl

end Expr

/-! ### The pool -/

/-- The numbers of the tree in the order of their first occurrence, each once. They are told apart by identity, not by comparison as numbers. -/
def Expr.constants {α : Type} [DecidableEq α] (e : Expr α) : List α := e.numbers.eraseDups

def Program.place {α : Type} [DecidableEq α] (p : Program α) (c : α) : Nat := p.pool.idxOf c

namespace CodeBuilder

variable {α : Type} [DecidableEq α]

theorem toList_foldl_addConstant (cs : List α) :
    (cs.foldl addConstant #[]).toList = cs.eraseDups := by
  induction cs using List.reverseRecOn with
  | nil => rfl
  | append_singleton cs c ih =>
    have hmem : c ∈ cs.foldl addConstant #[] ↔ c ∈ cs := by simp [mem_foldl_addConstant]
    rw [List.foldl_append, List.foldl_cons, List.foldl_nil, List.eraseDups_append, ← ih]
    by_cases hc : c ∈ cs
    · have hremoved : [c].removeAll cs = [] := by simp [List.removeAll, hc]
      rw [addConstant, if_pos (hmem.mpr hc), hremoved, List.eraseDups_nil, List.append_nil]
    · have hkept : [c].removeAll cs = [c] := by simp [List.removeAll, hc]
      rw [addConstant, if_neg (mt hmem.mp hc), Array.toList_push, hkept]
      rfl

end CodeBuilder

namespace Program

variable {α : Type}

/-- The program with trees for scalars, where every constant stands for itself. -/
def onTrees (p : Program α) : Program (Expr α) := ⟨p.param, p.code, p.pool.map .num, p.stackSize⟩

/-- The tree that the program computes, if its code gets through and leaves a single one. -/
def tree? (p : Program α) : Option (Expr α) :=
  match (p.onTrees.run? (.var p.param) #[]).map Array.toList with
  | some [e] => some e
  | _ => none

theorem tree?_congr {p p' : Program α} (hparam : p.param = p'.param) (hcode : p.code = p'.code)
    (hpool : p.pool = p'.pool) : p.tree? = p'.tree? := by
  rw [tree?, tree?, run?, run?, onTrees, onTrees, hparam, hcode, hpool]

variable [DecidableEq α] {e : Expr α} {param : Var}

/-- Run on trees, the program of a tree builds the tree. -/
theorem tree?_ofTree (hbound : e.boundBy param = true) (hfit : e.callsFit = true) :
    (ofTree e param).tree? = some (e.rename fun _ => param) := by
  have hpool : ∀ n ∈ e.numbers,
      (ofTree e param).onTrees.pool[(ofTree e param).pool.idxOf n]? = some (.num n) := by
    intro n hn
    rw [onTrees, Array.getElem?_map, getElem?_idxOf_ofTree hn, Option.map_some]
  have hcode := Instr.Computes.of_evaluateAs (Expr.evaluateAs_num hbound hfit) hpool
  have hrun : (ofTree e param).onTrees.run? (.var (ofTree e param).param) #[] =
      some #[e.rename fun _ => param] := by
    rw [run?, ← Array.foldlM_toList]
    exact hcode.run #[]
  rw [tree?, hrun]
  rfl

/-- A compiled program lists the nodes of its tree, operands first, with one instruction for each. Its pool holds the distinct numbers of the tree in the order of their first occurrence, and the instruction for a number gives the place of this very number. So a tree with the same code and the same pool is the same up to the name of its variable, which comparison ignores, and it is the same altogether where the identity of a variable determines the name, as it does for variables made by a supply. -/
theorem compile_layout {p : Program α} (h : compile e param = .ok p) :
    p.code.toList = e.postorder.map (Expr.nodeInstr p.place) ∧
      p.code.size = e.nodeCount ∧
      p.pool.toList = e.constants ∧
      (∀ n ∈ e.numbers, p.pool[p.place n]? = some n) ∧
      ∀ (e' : Expr α) (p' : Program α), compile e' param = .ok p' →
        p'.code = p.code → p'.pool = p.pool →
        (e'.rename fun _ => param) = (e.rename fun _ => param) ∧
          ((∀ w ∈ e.occurrences ++ e'.occurrences, (w == param) = true → w.name = param.name) →
            e' = e) := by
  have hsize := size_code h
  obtain ⟨⟨hbound, hfit, _⟩, rfl⟩ := compile_eq_ok_iff.mp h
  refine ⟨Expr.listing_eq_map_postorder _ e, hsize, CodeBuilder.toList_foldl_addConstant e.numbers,
    fun n hn => getElem?_idxOf_ofTree hn, ?_⟩
  intro e' p' h' hcode hpool
  obtain ⟨⟨hbound', hfit', _⟩, rfl⟩ := compile_eq_ok_iff.mp h'
  have htree : e'.rename (fun _ => param) = e.rename fun _ => param := by
    apply Option.some_inj.mp
    rw [← tree?_ofTree hbound hfit, ← tree?_ofTree hbound' hfit']
    exact tree?_congr rfl hcode hpool
  refine ⟨htree, ?_⟩
  intro hnames
  rw [List.forall_mem_append] at hnames
  rwa [Expr.rename_eq_self_of_boundBy hbound' hnames.2, Expr.rename_eq_self_of_boundBy hbound hnames.1]
    at htree

/-- The tree `(0 + nan) * sin (-0 + nan')`, with two patterns that stand for no number, and the tree `(0 + nan) * sin (-0 + nan)`, which has the same nodes otherwise. -/
theorem compile_layout_zeros_and_nans :
    let x : Var := ⟨0, "x"⟩
    let minusZero : Binary64 := ⟨0x8000000000000000⟩
    let nan : Binary64 := ⟨0x7ff8000000000000⟩
    let nan' : Binary64 := ⟨0xfff8000000000000⟩
    let e : Expr Binary64 :=
      .mul (.add (.num 0) (.num nan)) (Expr.sin (.add (.num minusZero) (.num nan')))
    let p : Program Binary64 :=
      ⟨x, #[.loadConst 0, .loadConst 1, .add, .loadConst 2, .loadConst 3, .add, .sin, .mul],
        #[0, nan, minusZero, nan'], 3⟩
    compile e x = .ok p ∧
      p.code.toList = e.postorder.map (Expr.nodeInstr p.place) ∧
      p.code.size = e.nodeCount ∧
      p.pool.toList = e.constants ∧
      (∀ n ∈ e.numbers, p.pool[p.place n]? = some n) ∧
      ∀ (e' : Expr Binary64) (p' : Program Binary64), compile e' x = .ok p' →
        p'.code = p.code → p'.pool = p.pool →
        (e'.rename fun _ => x) = (e.rename fun _ => x) ∧
          ((∀ w ∈ e.occurrences ++ e'.occurrences, (w == x) = true → w.name = x.name) →
            e' = e) := by
  intro x minusZero nan nan' e p
  have h : compile e x = .ok p := by
    have hpool : CodeBuilder.addConstants #[] e = #[0, nan, minusZero, nan'] := by decide +kernel
    refine compile_eq_ok_iff.mpr ⟨by decide, ?_⟩
    rw [ofTree, hpool]
    simp only [List.idxOf_toArray]
    rfl
  exact ⟨h, compile_layout h⟩

end Program

end Univariate
