import Univariate.Decimal.Shortest

/-!
# Binary interchange formats

A binary floating-point number is stored as a sign bit, a field of exponent bits and a field of fraction bits. This module takes such a pattern apart into the number it stands for, for any widths of the two fields.
-/

namespace Univariate

/-- The number that a bit pattern stands for. -/
inductive Unpacked where
  /-- No number. -/
  | nan
  | infinite (negative : Bool)
  | zero (negative : Bool)
  /-- A number other than zero: the sign, and the absolute value with its rounding interval. -/
  | nonzero (negative : Bool) (magnitude : RoundingInterval)
deriving DecidableEq

structure BinaryFormat where
  exponentBits : Nat
  fractionBits : Nat

namespace BinaryFormat

def binary64 : BinaryFormat := ⟨11, 52⟩

def binary32 : BinaryFormat := ⟨8, 23⟩

variable (format : BinaryFormat)

/-- The exponent of the last place of the smallest numbers. -/
def leastExponent : Int := 2 - Nat.pow 2 (format.exponentBits - 1) - format.fractionBits

/-- Takes a bit pattern apart. The first exponent field has no implicit leading bit and the last one has no finite numbers. At a power of two the neighbour below has a smaller exponent and is nearer, unless the exponent is the least one already. -/
def unpack (bits : Nat) : Unpacked :=
  let fraction := bits % Nat.pow 2 format.fractionBits
  let field := bits / Nat.pow 2 format.fractionBits % Nat.pow 2 format.exponentBits
  let negative := bits / Nat.pow 2 (format.fractionBits + format.exponentBits) % 2 == 1
  if field + 1 = Nat.pow 2 format.exponentBits then
    if fraction = 0 then .infinite negative else .nan
  else if field = 0 then
    if fraction = 0 then .zero negative else .nonzero negative ⟨fraction, format.leastExponent, false⟩
  else
    .nonzero negative
      ⟨Nat.pow 2 format.fractionBits + fraction, format.leastExponent + (field - 1 : Nat), fraction == 0 && field != 1⟩

end BinaryFormat

end Univariate
