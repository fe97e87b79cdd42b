import Univariate.Derive.Offence
import Univariate.Event

/-!
# The tour of a tree

Differentiation goes through a tree from left to right and comes to every node once on the way down. Outside of products it also notices when it goes into the argument of a sine or a cosine and when it has finished with an additive term. The argument of a call is a sum of terms again, unless it is a bare variable, which is not looked into. A tour lists all of this; where it meets an offence differentiation stops, and what it reports is the part of the tour before.
-/

namespace Univariate

namespace Expr

variable {α : Type}

/-- Where a node stands: with respect to the products above it, and inside which calls of the sine and the cosine, the innermost one first. -/
structure Position (α : Type) where
  place : Place
  enclosing : List (Expr α)

def Position.below (position : Position α) (node : Expr α) : Position α where
  place := position.place.below node
  enclosing :=
    match node with
    | .call .sin _ | .call .cos _ => node :: position.enclosing
    | _ => position.enclosing

/-- The nodes of the tree, each with its position, in the order in which they are met. -/
def placedNodes (position : Position α) (e : Expr α) : List (Position α × Expr α) :=
  e.preorder (fun position node _ => position.below node) position

inductive Step (α : Type) where
  | visit (position : Position α) (node : Expr α)
  /-- The terms of an argument come next. -/
  | enter (f : Func) (u : Expr α)
  | finish (term : Expr α)

namespace Step

def visit? : Step α → Option (Position α × Expr α)
  | .visit position node => some (position, node)
  | _ => none

def isReported (step : Step α) : Bool := step.visit?.isNone

end Step

/-- The tour of a term that holds no other terms. -/
def tourTerm (enclosing : List (Expr α)) (e : Expr α) : List (Step α) :=
  (e.placedNodes ⟨.free, enclosing⟩).map (fun visit => .visit visit.1 visit.2) ++ [.finish e]

/-- The tour of a call with one argument, given the tour of the terms of the argument. -/
def tourCall (f : Func) (enclosing : List (Expr α)) (u : Expr α) (terms : List (Step α)) : List (Step α) :=
  match u with
  | .var _ => tourTerm enclosing (call f [u])
  | u => .visit ⟨.free, enclosing⟩ (call f [u]) :: .enter f u :: (terms ++ [.finish (call f [u])])

/-- The tour of a tree that stands in no product, inside of the given calls. -/
def tour (enclosing : List (Expr α)) : Expr α → List (Step α)
  | .add l r => .visit ⟨.free, enclosing⟩ (.add l r) :: (tour enclosing l ++ tour enclosing r)
  | .call .sin [u] => tourCall .sin enclosing u (tour (u.sin :: enclosing) u)
  | .call .cos [u] => tourCall .cos enclosing u (tour (u.cos :: enclosing) u)
  | e => tourTerm enclosing e

theorem tourCall_of_asVar? (f : Func) (enclosing : List (Expr α)) {u : Expr α} (hu : u.asVar? = none)
    (terms : List (Step α)) :
    tourCall f enclosing u terms =
      .visit ⟨.free, enclosing⟩ (call f [u]) :: .enter f u :: (terms ++ [.finish (call f [u])]) := by
  cases u with
  | var w => cases hu
  | _ => rfl

theorem tour_misfit (enclosing : List (Expr α)) {f : Func} {args : List (Expr α)}
    (hargs : args.length ≠ f.arity) :
    (call f args).tour enclosing = tourTerm enclosing (call f args) := by
  cases f with
  | pow => rfl
  | sin | cos =>
    match args, hargs with
    | [], _ => rfl
    | [_], hargs => exact absurd rfl hargs
    | _ :: _ :: _, _ => rfl

section Offences

variable [Literal α]

def isOffending (visit : Position α × Expr α) : Bool := (offence? visit.1.place visit.2).isSome

def firstOffending? (enclosing : List (Expr α)) (e : Expr α) : Option (Position α × Expr α) :=
  (e.placedNodes ⟨.free, enclosing⟩).find? isOffending

def Step.isAllowed (step : Step α) : Bool := !step.visit?.any isOffending

/-- What is reported of a tour: the steps before the first offence, without the visits. -/
def reported (steps : List (Step α)) : List (Step α) :=
  (steps.takeWhile Step.isAllowed).filter Step.isReported

variable [Zero α] [One α] [Neg α] [Add α] [Sub α] [Mul α] [BEq α]
  {γ : Type} [Count γ] [Counting α γ]

/-- The event that reports the step, when the variable is `v`. -/
inductive Step.Reports (v : Var) : Step α → Event α → Prop where
  | enter (f : Func) (u : Expr α) : Reports v (.enter f u) (.applyingChainRule f u)
  | finish {term d : Expr α} :
    (deriveSum v term).outcome = .ok d → Reports v (.finish term) (.differentiatedTerm term d)

end Offences

end Expr

end Univariate
