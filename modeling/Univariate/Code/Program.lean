import Univariate.Code.Builder

/-!
# Programs

A program is the code of one tree together with its pool and the height of stack that it needs. It is run at a point by executing its instructions on an empty stack, at many points by doing so for one after the other with a single buffer for the stack, or piece by piece with a buffer of its own for each piece.
-/

namespace Univariate

/-- The compiled form of a function of one variable. -/
structure Program (α : Type) where
  /-- The variable that the input stands for. -/
  param : Var
  code : Array Instr
  pool : Array α
  stackSize : Nat

namespace Program

variable {α : Type}

def compile [DecidableEq α] (e : Expr α) (param : Var) : Except Error (Program α) :=
  match CodeBuilder.attempt e { param } with
  | (.ok _, b) => .ok ⟨param, b.code, b.pool, b.peak⟩
  | (.error error, _) => .error error

section Stopping

variable [Add α] [Mul α] [Elementary α]

/-- The stack after the whole code, started on the given one, if nothing is missing on the way. -/
def run? (p : Program α) (x : α) (stack : Array α) : Option (Array α) :=
  p.code.foldlM (Instr.step? p.pool x) stack

end Stopping

variable [Add α] [Mul α] [Elementary α] [Measured α]

def run (p : Program α) (x : α) (stack : Array α) : Array α :=
  p.code.foldl (Instr.step p.pool x) stack

/-- The value at `x`, computed in a buffer that is emptied first, and the buffer as it is left. -/
def evaluateWith (p : Program α) (buffer : Array α) (x : α) : α × Array α :=
  Instr.pop (p.run x (buffer.shrink 0))

def evaluate (p : Program α) (x : α) : α :=
  (p.evaluateWith (Array.emptyWithCapacity p.stackSize) x).1

/-- The values at the points in order, computed in one buffer that is passed on from point to point. -/
def evaluateFrom (p : Program α) (buffer : Array α) : List α → List α
  | [] => []
  | x :: xs =>
    let (y, buffer) := p.evaluateWith buffer x
    y :: evaluateFrom p buffer xs

def evaluateBatch (p : Program α) (xs : List α) : List α :=
  p.evaluateFrom (Array.emptyWithCapacity p.stackSize) xs

/-- The values at the points of all pieces in order. Each piece is computed in its own buffer, whatever is left in it, so the pieces do not depend on each other. -/
def evaluatePieces (p : Program α) (pieces : List (Array α × List α)) : List α :=
  pieces.flatMap fun (buffer, xs) => p.evaluateFrom buffer xs

def halves : (depth : Nat) → List α → List (List α)
  | 0, xs => [xs]
  | depth + 1, xs =>
    halves depth (xs.take (xs.length / 2)) ++ halves depth (xs.drop (xs.length / 2))

def divisionThreshold : Nat := 256

/-- The values at the points in order, where many points are divided into pieces, each with the buffer in which it is computed. -/
def evaluateDividedBy (p : Program α) (divide : List α → List (Array α × List α)) (xs : List α) :
    List α :=
  if xs.length < divisionThreshold then p.evaluateBatch xs else p.evaluatePieces (divide xs)

def evaluateDivided (p : Program α) (depth : Nat) (xs : List α) : List α :=
  p.evaluateDividedBy
    (fun xs => (halves depth xs).map fun piece => (Array.emptyWithCapacity p.stackSize, piece)) xs

end Program

end Univariate
