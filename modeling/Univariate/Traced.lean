import Univariate.Error
import Univariate.Event

/-!
# Traced computations

A computation that reports events is a value, not an effect: it holds the events in the order in which they happened beside its outcome, and those that happened before a failure stay. So what is reported, and when, can be stated and proved like any other fact about the computation.
-/

namespace Univariate

/-- A computation that may fail, with the events it has reported. -/
structure Traced (α β : Type) where
  events : List (Event α)
  outcome : Except Error β

namespace Traced

variable {α β γ : Type}

def fail (error : Error) : Traced α β := ⟨[], .error error⟩

/-- A computation that only reports an event. -/
def report (event : Event α) : Traced α Unit := ⟨[event], .ok ()⟩

def ofExcept (outcome : Except Error β) : Traced α β := ⟨[], outcome⟩

/-- One computation after the other. The second reports after the first, and is not run if the first fails. -/
def andThen (first : Traced α β) (second : β → Traced α γ) : Traced α γ :=
  match first.outcome with
  | .ok b =>
    let rest := second b
    ⟨first.events ++ rest.events, rest.outcome⟩
  | .error error => ⟨first.events, .error error⟩

instance : Monad (Traced α) where
  pure b := ⟨[], .ok b⟩
  bind := andThen

/-- Both ways of bracketing run the same computations: what comes after a failure is not run, wherever the failure is. -/
theorem andThen_assoc {δ : Type} (first : Traced α β) (second : β → Traced α γ) (third : γ → Traced α δ) :
    first >>= second >>= third = first >>= fun b => second b >>= third := by
  obtain ⟨events, outcome⟩ := first
  cases outcome with
  | error error => rfl
  | ok b =>
    change (Traced.mk (events ++ (second b).events) (second b).outcome >>= third) =
      ⟨events ++ (second b >>= third).events, (second b >>= third).outcome⟩
    obtain ⟨events', outcome'⟩ := second b
    cases outcome' with
    | error error => rfl
    | ok c => exact congrArg (Traced.mk · (third c).outcome) (List.append_assoc ..)

theorem map_id (computation : Traced α β) : id <$> computation = computation := by
  obtain ⟨events, outcome⟩ := computation
  cases outcome with
  | error error => rfl
  | ok b => exact congrArg (Traced.mk · (.ok b)) (List.append_nil events)

instance : LawfulMonad (Traced α) :=
  LawfulMonad.mk' (Traced α) map_id (fun _ _ => rfl) andThen_assoc

@[simp] theorem outcome_pure (b : β) : (pure b : Traced α β).outcome = .ok b := rfl

@[simp] theorem outcome_fail (error : Error) : (fail error : Traced α β).outcome = .error error := rfl

@[simp] theorem outcome_report (event : Event α) : (report event).outcome = .ok () := rfl

@[simp] theorem outcome_ofExcept (outcome : Except Error β) :
    (ofExcept outcome : Traced α β).outcome = outcome := rfl

theorem outcome_bind (first : Traced α β) (second : β → Traced α γ) :
    (first >>= second).outcome = first.outcome >>= fun b => (second b).outcome := by
  obtain ⟨events, outcome⟩ := first
  cases outcome <;> rfl

theorem events_bind (first : Traced α β) (second : β → Traced α γ) :
    (first >>= second).events =
      first.events ++ match first.outcome with
        | .ok b => (second b).events
        | .error _ => [] := by
  obtain ⟨events, outcome⟩ := first
  cases outcome with
  | ok b => rfl
  | error error => exact (List.append_nil events).symm

end Traced

end Univariate
