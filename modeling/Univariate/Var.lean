/-!
# Variables

A variable is known by its identity; its name is only for people to read. Two variables made separately are different even if they are spelled alike, so names never decide anything in this library.
-/

namespace Univariate

/-- A variable: an identity and the name it is shown by. -/
structure Var where
  id : Nat
  name : String

namespace Var

/-- Variables are compared by identity alone. -/
instance : BEq Var := ⟨fun v w => v.id == w.id⟩

theorem beq_iff {v w : Var} : (v == w) = true ↔ v.id = w.id := by
  simp [BEq.beq]

end Var

/-- A source of identities: those from `next` on have not been given out. -/
structure VarSupply where
  next : Nat := 0

namespace VarSupply

def fresh (supply : VarSupply) (name : String) : Var × VarSupply :=
  (⟨supply.next, name⟩, ⟨supply.next + 1⟩)

end VarSupply

end Univariate
