import Univariate.Decimal.Positional
import Univariate.Scalar.Binary64

/-!
# Written scalars

A scalar is written in two ways. On its own it is written as it is: the shortest digits in positional notation, a sign also on a negative zero, and short words for what is not finite. Inside a tree it is written in the form that `Literal` gives it, where small whole numbers have neither a point nor a sign on zero and the words are long.
-/

namespace Univariate

/-! ### A scalar on its own -/

class ScalarText (α : Type) where
  /-- The text of the scalar. -/
  text : α → String

namespace Unpacked

def sign (negative : Bool) : List Char := if negative then ['-'] else []

def text : Unpacked → String
  | .nan => "NaN"
  | .infinite negative => String.ofList (sign negative ++ ['i', 'n', 'f'])
  | .zero negative => String.ofList (sign negative ++ ['0'])
  | .nonzero negative magnitude => String.ofList (sign negative ++ magnitude.shortest.positional)

end Unpacked

instance : ScalarText Binary64 := ⟨fun a => a.unpack.text⟩
instance : ScalarText Float32 := ⟨fun a => (BinaryFormat.binary32.unpack a.toBits.toNat).text⟩

/-! ### A scalar inside a tree -/

/-- The forms in which a number is written inside a tree. -/
inductive NumberForm where
  /-- Not a number. -/
  | nan
  | infinite (negative : Bool)
  /-- A whole number, written without a point. -/
  | whole (n : Int)
  /-- Any other number, by its written digits with sign and point. -/
  | decimal (text : String)
deriving DecidableEq

def NumberForm.text : NumberForm → String
  | .nan => "NaN"
  | .infinite false => "Infinity"
  | .infinite true => "-Infinity"
  | .whole n => toString n
  | .decimal text => text

/-- What it takes to write a scalar inside a tree. -/
class Literal (α : Type) where
  /-- The form in which the scalar is written. -/
  form : α → NumberForm
  /-- Whether the scalar is below zero; as a factor it is then put in parentheses. -/
  isNegative : α → Bool

def Literal.text {α : Type} [Literal α] (a : α) : String := (Literal.form a).text

namespace Unpacked

/-- Whole numbers of this size and above are written like numbers with a fraction, with all their digits. -/
def wholeLimit : Nat := Nat.pow 10 10

/-- The absolute value as a natural number, if it is one. -/
def natural? (magnitude : RoundingInterval) : Option Nat :=
  if 0 ≤ magnitude.exponent then some (magnitude.significand * Nat.pow 2 magnitude.exponent.toNat)
  else
    let denominator := Nat.pow 2 (-magnitude.exponent).toNat
    if magnitude.significand % denominator = 0 then some (magnitude.significand / denominator) else none

/-- The form of a number inside a tree. Both zeros are the whole number zero. -/
def form : Unpacked → NumberForm
  | .nan => .nan
  | .infinite negative => .infinite negative
  | .zero _ => .whole 0
  | .nonzero negative magnitude =>
    let digits := NumberForm.decimal (Unpacked.nonzero negative magnitude).text
    match natural? magnitude with
    | some n => if n < wholeLimit then .whole (if negative then -n else n) else digits
    | none => digits

/-- Whether the number is below zero, which negative zero is not. -/
def isNegative : Unpacked → Bool
  | .infinite negative => negative
  | .nonzero negative _ => negative
  | _ => false

end Unpacked

instance : Literal Binary64 := ⟨fun a => a.unpack.form, fun a => a.unpack.isNegative⟩

end Univariate
