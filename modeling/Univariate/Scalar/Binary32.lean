import Univariate.Scalar.Binary64

/-!
# Binary32 scalars

Single precision is Lean's own `Float32`. Nothing here tells two values apart that are not numbers, so its one such value is enough.
-/

namespace Univariate

instance : Elementary Float32 where
  sin := Float32.sin
  cos := Float32.cos
  pow := Float32.pow

instance : Logarithm Float32 := ⟨Float32.log⟩

instance : Measured Float32 where
  nan := 0 / 0
  isFinite := Float32.isFinite
  abs := Float32.abs

/-- The nearest number of single precision, infinite if the number is too large for one. -/
def Binary64.toFloat32 (a : Binary64) : Float32 := a.toFloat.toFloat32

end Univariate
