import Univariate.Expr.Text

/-!
# Events

What differentiation reports while it works. An event holds the trees it is about; they are put into words only when somebody asks for its details.
-/

namespace Univariate

inductive Level where
  | trace
  | debug
  | info
deriving DecidableEq

namespace Level

def name : Level → String
  | .trace => "TRACE"
  | .debug => "DEBUG"
  | .info => "INFO"

def rank : Level → Nat
  | .trace => 0
  | .debug => 1
  | .info => 2

end Level

/-- What differentiation reports. -/
inductive Event (α : Type) where
  | differentiating (function : Expr α) (var : Var)
  /-- The argument of a call is about to be differentiated. -/
  | applyingChainRule (func : Func) (argument : Expr α)
  | differentiatedTerm (term derivative : Expr α)
  /-- A derivative of so many nodes has been compiled into so much code, constants and stack. -/
  | compiled (nodes instructions constants stackSize : Nat)
  | differentiated (derivative : Expr α)

inductive Detail where
  | text (value : String)
  | count (value : Nat)

namespace Event

variable {α : Type}

/-- How severe the event is: the single terms are reported on the least severe level. -/
def level : Event α → Level
  | .differentiating .. | .compiled .. | .differentiated .. => .debug
  | .applyingChainRule .. | .differentiatedTerm .. => .trace

def message : Event α → String
  | .differentiating .. => "differentiating"
  | .applyingChainRule .. => "applying chain rule"
  | .differentiatedTerm .. => "differentiated term"
  | .compiled .. => "compiled expression"
  | .differentiated .. => "differentiated"

def details [Literal α] : Event α → List (String × Detail)
  | .differentiating function var =>
    [("function", .text function.text), ("var", .text var.name), ("nodes", .count function.nodeCount)]
  | .applyingChainRule func argument => [("func", .text func.name), ("argument", .text argument.text)]
  | .differentiatedTerm term derivative =>
    [("term", .text term.text), ("derivative", .text derivative.text)]
  | .compiled nodes instructions constants stackSize =>
    [("nodes", .count nodes), ("instructions", .count instructions), ("constants", .count constants),
      ("stack_size", .count stackSize)]
  | .differentiated derivative =>
    [("derivative", .text derivative.text), ("nodes", .count derivative.nodeCount)]

def atLeast (threshold : Level) (events : List (Event α)) : List (Event α) :=
  events.filter fun event => threshold.rank ≤ event.level.rank

end Event

end Univariate
