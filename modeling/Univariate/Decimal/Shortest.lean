/-!
# The shortest decimal in a rounding interval

A binary floating-point number is `significand · 2^exponent`, and every real number between the midpoints to its two neighbours rounds to it. The shortest decimal for it is the one with the fewest digits inside that interval, and of two with the same number of digits the one nearer to the number, the larger one if both are equally near.

The search goes over the grids of multiples of powers of ten, from one so coarse that only its first point can be inside down to one that holds the number itself. On each grid only the two points around the number have to be looked at: if any point of the grid is inside the interval, one of these two is. All comparisons are between natural numbers, so nothing is ever rounded, and since the last grid holds the number itself the search always ends inside the interval.
-/

namespace Univariate

/-- The decimal number `digits · 10^exponent`. -/
structure Decimal where
  digits : Nat
  exponent : Int
deriving DecidableEq

/-- The positive number `significand · 2^exponent` together with its rounding interval. -/
structure RoundingInterval where
  significand : Nat
  exponent : Int
  /-- Whether the neighbour below is only half as far away as the one above, as it is at a power of two. -/
  narrowBelow : Bool
deriving DecidableEq

namespace RoundingInterval

variable (r : RoundingInterval)

/-! ### Exact comparison

In quarters of the last binary place the number is `4 · significand`, the upper midpoint is two quarters away, and the lower one two or one. A point `c` of the grid of multiples of `10^place` is compared with `q` quarters by comparing `c · unit place` with `q · scale place`. -/

/-- The number in quarters of its last binary place. -/
def quarters : Nat := 4 * r.significand

def lowQuarters : Nat := r.quarters - if r.narrowBelow then 1 else 2

def highQuarters : Nat := r.quarters + 2

/-- The size of one step of the grid of multiples of `10^place`. -/
def unit (place : Int) : Nat := Nat.pow 10 place.toNat * Nat.pow 2 (2 - r.exponent).toNat

/-- The size of one quarter of the last binary place, measured like `unit place`. -/
def scale (place : Int) : Nat := Nat.pow 10 (-place).toNat * Nat.pow 2 (r.exponent - 2).toNat

/-- Whether the point `c · 10^place` rounds to the number; the ends of the interval do so exactly when the significand is even. -/
def holds (place : Int) (c : Nat) : Bool :=
  let point := c * r.unit place
  let low := r.lowQuarters * r.scale place
  let high := r.highQuarters * r.scale place
  if r.significand % 2 = 0 then low ≤ point && point ≤ high else low < point && point < high

/-- The last point of the grid that is not above the number. -/
def floorPoint (place : Int) : Nat := r.quarters * r.scale place / r.unit place

/-- The point of the grid to write the number with, if one of the two points around the number rounds to it. -/
def gridPoint? (place : Int) : Option Nat :=
  let c := r.floorPoint place
  match r.holds place c, r.holds place (c + 1) with
  | true, true =>
    if 2 * (r.quarters * r.scale place) < (2 * c + 1) * r.unit place then some c else some (c + 1)
  | true, false => some c
  | false, true => some (c + 1)
  | false, false => none

/-! ### The search -/

/-- A place at which the grid steps over the whole number: its first positive point is above it. -/
def coarsestPlace : Int :=
  let whole := if 0 ≤ r.exponent then r.significand * Nat.pow 2 r.exponent.toNat
    else r.significand / Nat.pow 2 (-r.exponent).toNat
  if whole = 0 then 0 else (Nat.toDigits 10 whole).length

def exactPlace : Int := min r.exponent 0

/-- The first hit on the grids from `place` downwards; after `steps` further grids the number itself is taken. -/
def search (place : Int) : (steps : Nat) → Decimal
  | 0 => ⟨r.floorPoint place, place⟩
  | steps + 1 =>
    match r.gridPoint? place with
    | some c => ⟨c, place⟩
    | none => search (place - 1) steps

/-- The decimal with the fewest digits that rounds to the number. -/
def shortest : Decimal :=
  r.search r.coarsestPlace (r.coarsestPlace - r.exactPlace).toNat

end RoundingInterval

end Univariate
