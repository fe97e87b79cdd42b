import Univariate.Scalar
import Univariate.Scalar.Unpacked

/-!
# Binary64 scalars

A `Binary64` is a floating-point number given by its 64 bits. `Float` would not do for the numbers in a tree: it has a single value that is not a number, while a pool of constants keeps apart all patterns that differ in a bit, and these have many.

Addition, subtraction, multiplication and division round once. An operand that is not a number is passed on with its bits, the left one first, and an operation without a meaningful result, such as zero times infinity, gives the pattern `invalid`, whose sign bit is set. The functions of `Elementary` and the logarithm follow the platform's mathematical library, which defines a few values even where an argument is not a number (any number raised to zero is one), so nothing is passed on by hand there.
-/

namespace Univariate

/-- A floating-point number as its 64 bits. -/
structure Binary64 where
  bits : UInt64
deriving DecidableEq

namespace Binary64

def toFloat (a : Binary64) : Float := Float.ofBits a.bits

/-- The result of an operation without a meaningful result. -/
def invalid : Binary64 := ⟨0xfff8000000000000⟩

/-- The bits of a result; of a result that is no number, those of `invalid`. -/
def ofFloat (x : Float) : Binary64 := if x.isNaN then invalid else ⟨x.toBits⟩

def isNaN (a : Binary64) : Bool := a.toFloat.isNaN

/-- An arithmetical operation with one rounding that passes on an operand that is not a number. -/
def arithmetic (op : Float → Float → Float) (a b : Binary64) : Binary64 :=
  if a.isNaN then a else if b.isNaN then b else ofFloat (op a.toFloat b.toFloat)

def unpack (a : Binary64) : Unpacked := BinaryFormat.binary64.unpack a.bits.toNat

instance : Inhabited Binary64 := ⟨⟨0⟩⟩
instance : Zero Binary64 := ⟨⟨0⟩⟩
instance : One Binary64 := ⟨⟨0x3ff0000000000000⟩⟩
instance : NatCast Binary64 := ⟨fun n => ofFloat (Float.ofNat n)⟩
instance : Counting Binary64 UInt32 := ⟨fun n => ((n : Nat) : Binary64)⟩
instance : IntCast Binary64 := ⟨fun n => ofFloat (Float.ofInt n)⟩
instance : Add Binary64 := ⟨arithmetic (· + ·)⟩
instance : Sub Binary64 := ⟨arithmetic (· - ·)⟩
instance : Mul Binary64 := ⟨arithmetic (· * ·)⟩
instance : Div Binary64 := ⟨arithmetic (· / ·)⟩

/-- Negation turns the sign bit over. -/
instance : Neg Binary64 := ⟨fun a => ⟨a.bits ^^^ 0x8000000000000000⟩⟩

/-- Comparison as numbers: both zeros are the same, and what is not a number equals nothing. -/
instance : BEq Binary64 := ⟨fun a b => a.toFloat == b.toFloat⟩

/-- The same pattern up to the sign of a zero and the bits of what is not a number. -/
def Alike (a b : Binary64) : Prop :=
  a = b ∨ ((a == 0) = true ∧ (b == 0) = true) ∨ (a.isNaN = true ∧ b.isNaN = true)

instance : LT Binary64 := ⟨fun a b => a.toFloat < b.toFloat⟩
instance : DecidableLT Binary64 := fun a b => inferInstanceAs (Decidable (a.toFloat < b.toFloat))

/-- The larger of two numbers; what is not a number gives way to the other operand. -/
instance : Max Binary64 :=
  ⟨fun a b => if a.isNaN then b else if a < b then b else a⟩

instance : Elementary Binary64 where
  sin a := ofFloat a.toFloat.sin
  cos a := ofFloat a.toFloat.cos
  pow a b := ofFloat (a.toFloat.pow b.toFloat)

instance : Logarithm Binary64 := ⟨fun a => ofFloat a.toFloat.log⟩

instance : Measured Binary64 where
  nan := ⟨0x7ff8000000000000⟩
  isFinite a := a.toFloat.isFinite
  abs a := ⟨a.bits &&& 0x7fffffffffffffff⟩

end Binary64

end Univariate
