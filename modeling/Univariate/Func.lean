import Univariate.Error

/-!
# Functions

The closed set of functions that a call in a tree can name.
-/

namespace Univariate

inductive Func where
  | sin
  | cos
  /-- The power of a base and an exponent, which the power rule produces. -/
  | pow
deriving DecidableEq

namespace Func

def name : Func → String
  | .sin => "sin"
  | .cos => "cos"
  | .pow => "pow"

def arity : Func → Nat
  | .sin | .cos => 1
  | .pow => 2

def ofName (name : String) : Except Error Func :=
  if name = "sin" then .ok .sin
  else if name = "cos" then .ok .cos
  else if name = "pow" then .ok .pow
  else .error (.unsupportedFunction name)

/-- The error for building a call with a wrong number of arguments. -/
def arityMismatch (f : Func) (count : Nat) : Error :=
  .invalidShape (f.name ++ "() expects " ++ toString f.arity ++ " argument(s), got " ++ toString count)

/-- The error for meeting a call with a wrong number of arguments in a tree. -/
def wrongArgumentCount (f : Func) (count : Nat) : Error :=
  .invalidShape (f.name ++ "() called with " ++ toString count ++ " argument(s)")

theorem arity_of_ne_pow {f : Func} (hf : f ≠ .pow) : f.arity = 1 := by
  cases f with
  | pow => exact absurd rfl hf
  | _ => rfl

theorem ofName_name (f : Func) : ofName f.name = .ok f := by
  cases f <;> rfl

end Func

end Univariate
