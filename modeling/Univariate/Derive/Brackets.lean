import Univariate.Derive.Rules

/-!
# Events as brackets

A reader of the events can tell from them alone how the terms are nested. The announcement of the chain rule opens a bracket, which the derivative of the same call closes; in between come the terms of its argument, each of them once and in order. The state of the reader is the list of the terms that are finished at the present level, with their derivatives, and the calls that are still open.
-/

namespace Univariate

namespace Expr

variable {α : Type}

/-- Whether the chain rule is announced for the term. -/
def isChained : Expr α → Bool
  | .call .sin [u] | .call .cos [u] => u.asVar?.isNone
  | _ => false

end Expr

abbrev Finished (α : Type) := List (Expr α × Expr α)

/-- A call of which the argument is being differentiated, and the terms that were finished before it. -/
structure OpenCall (α : Type) where
  func : Func
  argument : Expr α
  before : Finished α

def OpenCall.term {α : Type} (call : OpenCall α) : Expr α := .call call.func [call.argument]

/-- What a reader of events knows. -/
structure Reader (α : Type) where
  finished : Finished α := []
  /-- The calls that are still open, the innermost one first. -/
  opened : List (OpenCall α) := []

namespace Reader

variable {α : Type}

/-- What a reader accepts as the next event. -/
inductive Reads : Reader α → Event α → Reader α → Prop where
  | opening (f : Func) (u : Expr α) (finished : Finished α) (opened : List (OpenCall α)) :
    Reads ⟨finished, opened⟩ (.applyingChainRule f u) ⟨[], ⟨f, u, finished⟩ :: opened⟩
  /-- All terms of the argument are finished. -/
  | closing {call : OpenCall α} {finished : Finished α} (opened : List (OpenCall α)) (d : Expr α) :
    finished.map Prod.fst = call.argument.terms →
    Reads ⟨finished, call :: opened⟩ (.differentiatedTerm call.term d)
      ⟨call.before ++ [(call.term, d)], opened⟩
  | term {t : Expr α} (finished : Finished α) (opened : List (OpenCall α)) (d : Expr α) :
    t.isChained = false →
    Reads ⟨finished, opened⟩ (.differentiatedTerm t d) ⟨finished ++ [(t, d)], opened⟩

inductive ReadsAll : Reader α → List (Event α) → Reader α → Prop where
  | nil (reader : Reader α) : ReadsAll reader [] reader
  | cons {first next last : Reader α} {event : Event α} {events : List (Event α)} :
    Reads first event next → ReadsAll next events last → ReadsAll first (event :: events) last

end Reader

end Univariate
