import Univariate.Scalar.Text

/-!
# Dual numbers

A dual number `val + eps · ε` with `ε² = 0` carries a value together with a derivative. The operations follow the rules of calculus: the product rule, the chain rule for the sine and the cosine, and for a power either the power rule or, where the exponent varies, the general rule with the logarithm.
-/

namespace Univariate

structure Dual (α : Type) where
  val : α
  eps : α
deriving DecidableEq

namespace Dual

variable {α : Type}

def constant [Zero α] (val : α) : Dual α := ⟨val, 0⟩

def varying [One α] (val : α) : Dual α := ⟨val, 1⟩

instance [Add α] : Add (Dual α) := ⟨fun a b => ⟨a.val + b.val, a.eps + b.eps⟩⟩

/-- The product rule. -/
instance [Add α] [Mul α] : Mul (Dual α) :=
  ⟨fun a b => ⟨a.val * b.val, a.val * b.eps + a.eps * b.val⟩⟩

instance [Neg α] : Neg (Dual α) := ⟨fun a => ⟨-a.val, -a.eps⟩⟩

instance [BEq α] : BEq (Dual α) := ⟨fun a b => a.val == b.val && a.eps == b.eps⟩

/-- The order by value, then by derivative, as far as both compare. -/
def compare? [BEq α] [LT α] [DecidableLT α] (a b : Dual α) : Option Ordering :=
  match Univariate.compare? a.val b.val with
  | some .eq => Univariate.compare? a.eps b.eps
  | order => order

def text [ScalarText α] (a : Dual α) : String :=
  ScalarText.text a.val ++ " + " ++ ScalarText.text a.eps ++ "ε"

section Power

variable [Zero α] [One α] [Add α] [Sub α] [Mul α] [Div α] [BEq α] [Elementary α] [Logarithm α]

/-- A power. An exponent whose derivative is zero takes the power rule, any other the rule `(u ^ v)′ = u ^ v · (v′ · ln u + v · u′ / u)`. -/
def pow (a b : Dual α) : Dual α :=
  let val := Elementary.pow a.val b.val
  if b.eps == 0 then ⟨val, b.val * Elementary.pow a.val (b.val - 1) * a.eps⟩
  else ⟨val, val * (b.eps * Logarithm.ln a.val + b.val * a.eps / a.val)⟩

instance [Neg α] : Elementary (Dual α) where
  sin a := ⟨Elementary.sin a.val, a.eps * Elementary.cos a.val⟩
  cos a := ⟨Elementary.cos a.val, -a.eps * Elementary.sin a.val⟩
  pow := pow

end Power

end Dual

end Univariate
