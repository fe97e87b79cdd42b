import Univariate.Decimal.Shortest

/-!
# Positional notation

A decimal number is written with all its places and never with an exponent: zeros fill the places down to the units when the exponent is positive, and a negative exponent puts the point so many digits from the right, with at least one digit before it.
-/

namespace Univariate

namespace Decimal

def digitsOf (n : Nat) : List Char := Nat.toDigits 10 n

/-- Digits with the point set `places` digits from the right, filled with zeros in front so that a digit precedes the point. -/
def pointed (digits : List Char) (places : Nat) : List Char :=
  let padded := List.replicate (places + 1 - digits.length) '0' ++ digits
  let whole := padded.length - places
  padded.take whole ++ '.' :: padded.drop whole

def positional (d : Decimal) : List Char :=
  if 0 ≤ d.exponent then digitsOf d.digits ++ List.replicate d.exponent.toNat '0'
  else pointed (digitsOf d.digits) (-d.exponent).toNat

end Decimal

end Univariate
