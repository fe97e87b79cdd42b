import Univariate.Scalar

/-!
# Instructions

The instructions of a stack machine with one input. Values are kept on a stack, whose top is the end of an array, and constants in a pool. An instruction takes its operands off the stack, the right one first, and puts its result there.

Balanced code never misses an operand. The machine does not rely on it: it reads no number for a value that is not there and goes on. `Instr.step?` is the machine that stops instead, so where it gets through nothing was missing.
-/

namespace Univariate

inductive Instr where
  /-- Puts a constant of the pool onto the stack. A pool has no more constants than the compiled trees have nodes, which is far below `2 ^ 32`, so the index would fit into 32 bits. -/
  | loadConst (index : Nat)
  /-- Puts the input onto the stack. -/
  | loadParam
  | add
  | mul
  | sin
  | cos
  /-- Replaces a base and the exponent above it by their power. -/
  | pow
deriving DecidableEq

namespace Instr

def stackEffect : Instr → Int
  | .loadConst _ | .loadParam => 1
  | .add | .mul | .pow => -1
  | .sin | .cos => 0

def totalEffect (instrs : List Instr) : Int := (instrs.map stackEffect).foldr (· + ·) 0

def operands : Instr → Nat
  | .loadConst _ | .loadParam => 0
  | .sin | .cos => 1
  | .add | .mul | .pow => 2

variable {α : Type}

/-! ### Steps that stop -/

/-- The top of the stack and the stack below it. -/
def pop? (stack : Array α) : Option (α × Array α) :=
  match stack.back? with
  | some top => some (top, stack.pop)
  | none => none

def onTop? (op : α → α) (stack : Array α) : Option (Array α) := do
  let (a, stack) ← pop? stack
  return stack.push (op a)

/-- Replaces the two topmost values by one that depends on them, the left operand being the lower one. -/
def onTopTwo? (op : α → α → α) (stack : Array α) : Option (Array α) := do
  let (b, stack) ← pop? stack
  let (a, stack) ← pop? stack
  return stack.push (op a b)

@[simp] theorem pop?_push (stack : Array α) (a : α) : pop? (stack.push a) = some (a, stack) := by
  simp [pop?]

@[simp] theorem onTop?_push (op : α → α) (stack : Array α) (a : α) :
    onTop? op (stack.push a) = some (stack.push (op a)) := by
  simp [onTop?]

@[simp] theorem onTopTwo?_push (op : α → α → α) (stack : Array α) (a b : α) :
    onTopTwo? op ((stack.push a).push b) = some (stack.push (op a b)) := by
  simp [onTopTwo?]

section Stopping

variable [Add α] [Mul α] [Elementary α]

/-- The stack after the instruction, with the given pool and input, if no operand and no constant is missing. -/
def step? (pool : Array α) (x : α) (stack : Array α) : Instr → Option (Array α)
  | .loadConst index => pool[index]?.map stack.push
  | .loadParam => some (stack.push x)
  | .add => onTopTwo? (· + ·) stack
  | .mul => onTopTwo? (· * ·) stack
  | .sin => onTop? Elementary.sin stack
  | .cos => onTop? Elementary.cos stack
  | .pow => onTopTwo? Elementary.pow stack

end Stopping

/-! ### Steps that go on -/

variable [Measured α]

/-- The top of the stack and the stack below it. An empty stack has no number on it. -/
def pop (stack : Array α) : α × Array α := (pop? stack).getD (Measured.nan, #[])

def onTop (op : α → α) (stack : Array α) : Array α :=
  let (a, stack) := pop stack
  stack.push (op a)

def onTopTwo (op : α → α → α) (stack : Array α) : Array α :=
  let (b, stack) := pop stack
  let (a, stack) := pop stack
  stack.push (op a b)

theorem pop_of_pop? {stack rest : Array α} {a : α} (h : pop? stack = some (a, rest)) :
    pop stack = (a, rest) := by
  rw [pop, h]
  rfl

theorem onTop_of_onTop? {op : α → α} {stack stack' : Array α} (h : onTop? op stack = some stack') :
    onTop op stack = stack' := by
  obtain ⟨⟨a, rest⟩, ha, hpush⟩ := Option.bind_eq_some_iff.mp h
  rw [onTop, pop_of_pop? ha]
  exact Option.some_inj.mp hpush

theorem onTopTwo_of_onTopTwo? {op : α → α → α} {stack stack' : Array α}
    (h : onTopTwo? op stack = some stack') : onTopTwo op stack = stack' := by
  obtain ⟨⟨b, below⟩, hb, h⟩ := Option.bind_eq_some_iff.mp h
  obtain ⟨⟨a, rest⟩, ha, hpush⟩ := Option.bind_eq_some_iff.mp h
  rw [onTopTwo, pop_of_pop? hb]
  dsimp only
  rw [pop_of_pop? ha]
  exact Option.some_inj.mp hpush

variable [Add α] [Mul α] [Elementary α]

def step (pool : Array α) (x : α) (stack : Array α) : Instr → Array α
  | .loadConst index => stack.push (pool.getD index Measured.nan)
  | .loadParam => stack.push x
  | .add => onTopTwo (· + ·) stack
  | .mul => onTopTwo (· * ·) stack
  | .sin => onTop Elementary.sin stack
  | .cos => onTop Elementary.cos stack
  | .pow => onTopTwo Elementary.pow stack

/-- Where nothing is missing both machines do the same. -/
theorem step_of_step? {pool : Array α} {x : α} {stack stack' : Array α} {instr : Instr}
    (h : step? pool x stack instr = some stack') : step pool x stack instr = stack' := by
  cases instr with
  | loadConst index =>
    obtain ⟨c, hc, rfl⟩ := Option.map_eq_some_iff.mp h
    rw [step, Array.getD_eq_getD_getElem?, hc]
    rfl
  | loadParam => exact Option.some_inj.mp h
  | add => exact onTopTwo_of_onTopTwo? h
  | mul => exact onTopTwo_of_onTopTwo? h
  | sin => exact onTop_of_onTop? h
  | cos => exact onTop_of_onTop? h
  | pow => exact onTopTwo_of_onTopTwo? h

end Instr

end Univariate
