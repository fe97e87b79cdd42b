import Univariate.Code.Instr
import Univariate.Expr.Basic

/-!
# Building code

Code is built for one bound variable by appending, tree after tree: first the code of the operands, then the instruction that joins them. The builder keeps the pool of constants, with a map from each constant to its place so that none is put there twice, and follows the height of the stack as it will be when the code runs.

A tree may turn out not to be compilable when some of its code has already been appended. The builder then stays as it is at that point and can go on with the next tree, so its state is part of the outcome of a failure too.
-/

namespace Univariate

/-- The code built so far for the variable `param`. -/
structure CodeBuilder (α : Type) where
  param : Var
  code : Array Instr := #[]
  /-- The constants in the order of their first use. -/
  pool : Array α := #[]
  /-- The place of each constant of the pool. -/
  places : α → Option Nat := fun _ => none
  /-- The height of the stack after the code. -/
  height : Nat := 0
  /-- The greatest height of the stack while the code runs. -/
  peak : Nat := 0

/-- A computation that appends to the code; a failure leaves what has been appended. -/
abbrev Build (α β : Type) := EStateM Error (CodeBuilder α) β

namespace CodeBuilder

variable {α : Type}

def stackLimit : Nat := 1024

def emit (instr : Instr) : Build α Unit :=
  modify fun b => { b with code := b.code.push instr }

/-- Notes that the stack gets one value higher. A height above the limit is an error, but it is noted all the same; it only does not count for the peak. -/
def raise : Build α Unit := do
  let height ← modifyGet fun b => (b.height + 1, { b with height := b.height + 1 })
  if height > stackLimit then throw (.stackOverflow height stackLimit)
  modify fun b => { b with peak := max b.peak height }

def lower : Build α Unit :=
  modify fun b => { b with height := b.height - 1 }

variable [DecidableEq α]

/-- The place of a constant in the pool, to which it is added unless it is there already. The place is not cut to 32 bits, because the number of compiled nodes bounds it far below `2 ^ 32`. -/
def intern (c : α) : Build α Nat :=
  modifyGet fun b =>
    match b.places c with
    | some index => (index, b)
    | none =>
      let index := b.pool.size
      (index, { b with
        pool := b.pool.push c
        places := fun k => if k = c then some index else b.places k })

/-- Appends the code of a tree, which leaves its value on the stack. -/
def compile : Expr α → Build α Unit
  | .num n => do
    emit (.loadConst (← intern n))
    raise
  | .var w => do
    if !(w == (← get).param) then throw (.unboundVariable w.name)
    emit .loadParam
    raise
  | .add l r => do
    compile l
    compile r
    lower
    emit .add
  | .mul l r => do
    compile l
    compile r
    lower
    emit .mul
  | .call .sin [u] => do
    compile u
    emit .sin
  | .call .cos [u] => do
    compile u
    emit .cos
  | .call .pow [base, exponent] => do
    compile base
    compile exponent
    lower
    emit .pow
  | .call f args => throw (f.wrongArgumentCount args.length)

/-- Compiles one more tree: the outcome, and the builder afterwards whatever the outcome is. -/
def attempt (e : Expr α) (b : CodeBuilder α) : Except Error Unit × CodeBuilder α :=
  match (compile e).run b with
  | .ok _ b => (.ok (), b)
  | .error error b => (.error error, b)

/-- Compiles one tree after the other, going on after failures: the outcome of each with the builder after it. -/
def attempts (b : CodeBuilder α) : List (Expr α) → List (Except Error Unit × CodeBuilder α)
  | [] => []
  | e :: es =>
    let step := attempt e b
    step :: attempts step.2 es

def outcomes (b : CodeBuilder α) (es : List (Expr α)) : List (Except Error Unit) :=
  (attempts b es).map Prod.fst

/-- The builders before the first of the trees and after each of them. -/
def stages (b : CodeBuilder α) (es : List (Expr α)) : List (CodeBuilder α) :=
  b :: (attempts b es).map Prod.snd

end CodeBuilder

end Univariate
