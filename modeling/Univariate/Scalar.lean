/-!
# Scalars

Trees, programs and dual numbers are all written over a type of scalars that is left open. The arithmetic they need is asked for by the usual classes (`Add`, `Mul`, `Zero`, …), one operation at a time, so that every definition says exactly what it computes with and a statement about it holds for floating-point numbers, for rationals and for operations without any law alike. This module adds the classes for what has no common class of its own.

Three notions of sameness of scalars are kept apart. `==` compares as numbers, so it may identify two zeros and refuse to compare a value that is not a number even with itself. `DecidableEq` is identity, for floating-point numbers sameness of all bits. Two scalars are written alike when their `NumberForm`s agree.
-/

namespace Univariate

/-- The functions that a call in a tree can name, on one type of scalars. -/
class Elementary (α : Type) where
  sin : α → α
  cos : α → α
  /-- The first argument raised to the second. -/
  pow : α → α → α

/-- The natural logarithm, which the derivative of a power needs when its exponent varies. -/
class Logarithm (α : Type) where
  ln : α → α

/-- Scalars that are measured: an element that stands for no number, a test for being finite, and a size. -/
class Measured (α : Type) where
  /-- The scalar that stands for no number. -/
  nan : α
  /-- Whether the scalar is an ordinary number, neither infinite nor `nan`. -/
  isFinite : α → Bool
  abs : α → α

/-- Numbers to count with. The count of two parts together is the sum of their counts, even where different numbers of things have the same count. -/
class Count (γ : Type) where
  /-- The count of so many things. -/
  ofNat : Nat → γ
  add : γ → γ → γ
  ofNat_add (m n : Nat) : ofNat (m + n) = add (ofNat m) (ofNat n)

instance coeNatUInt32 : Coe Nat UInt32 := ⟨UInt32.ofNat⟩
instance coeUInt32Nat : CoeOut UInt32 Nat := ⟨UInt32.toNat⟩

instance : Count Nat := ⟨fun n => n, (· + ·), fun _ _ => rfl⟩

/-- In 32 bits a count starts again from zero after `2 ^ 32 - 1`. -/
instance : Count UInt32 := ⟨fun n => n, (· + ·), UInt32.ofNat_add⟩

/-- The numbers that go with a type of scalars when the factors of a product are counted, and the scalars that stand for them. -/
class Counting (α : Type) (γ : outParam Type) where
  toScalar : γ → α

/-- The order of two scalars as far as there is one: equal scalars first, then the strict order both ways, and `none` for scalars that do not compare. -/
def compare? {α : Type} [BEq α] [LT α] [DecidableLT α] (a b : α) : Option Ordering :=
  if a == b then some .eq else if a < b then some .lt else if b < a then some .gt else none

end Univariate
