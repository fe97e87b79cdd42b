/-!
# Errors

Everything that can go wrong when a tree is built, differentiated, compiled or evaluated, by cause. `Error.message` is the only place where causes are put into words.
-/

namespace Univariate

inductive Error where
  /-- A function that does not exist, or that has no rule of differentiation. -/
  | unsupportedFunction (name : String)
  /-- A tree of the wrong shape; `found` describes the offending part. -/
  | invalidShape (found : String)
  | emptySum
  /-- A variable other than the one that is bound. -/
  | unboundVariable (name : String)
  /-- A program that would need a stack of this depth. -/
  | stackOverflow (depth limit : Nat)
  | tooDeep
  | tooLarge
deriving DecidableEq

namespace Error

def message : Error → String
  | .unsupportedFunction name => "Differentiation for the '" ++ name ++ "' function is not implemented"
  | .invalidShape found => "Invalid expression shape for a power-rule term: " ++ found
  | .emptySum => "Cannot build a sum from an empty term list"
  | .unboundVariable name => "Variable '" ++ name ++ "' is not bound by this function"
  | .stackOverflow depth limit =>
    "Expression requires a stack depth of " ++ toString depth ++ ", limit is " ++ toString limit
  | .tooDeep => "Expression nesting depth exceeds maximum limit"
  | .tooLarge => "Expression size exceeds maximum node count limit"

/-! ### Computations that may fail -/

variable {β γ : Type}

theorem bind_eq_ok_iff {first : Except Error β} {second : β → Except Error γ} {c : γ} :
    (first >>= second) = .ok c ↔ ∃ b, first = .ok b ∧ second b = .ok c := by
  cases first with
  | ok b =>
    constructor
    · intro h
      exact ⟨b, rfl, h⟩
    · rintro ⟨b', hb, h⟩
      cases hb
      exact h
  | error error =>
    constructor
    · intro h
      cases h
    · rintro ⟨b, hb, _⟩
      cases hb

/-- Two outcomes that are related results or the same error. -/
inductive Agree {β γ : Type} (R : β → γ → Prop) : Except Error β → Except Error γ → Prop where
  | ok {b : β} {c : γ} : R b c → Agree R (.ok b) (.ok c)
  | error (error : Error) : Agree R (.error error) (.error error)

namespace Agree

variable {β γ β' γ' : Type} {R : β → γ → Prop} {S : β' → γ' → Prop}

theorem of_eq {R : β → β → Prop} (hR : ∀ b, R b b) {first second : Except Error β}
    (h : first = second) : Agree R first second := by
  subst h
  cases first with
  | ok b => exact .ok (hR b)
  | error error => exact .error error

theorem symm {R : β → β → Prop} (hR : ∀ b c, R b c → R c b) {first second : Except Error β}
    (h : Agree R first second) : Agree R second first := by
  cases h with
  | ok hbc => exact .ok (hR _ _ hbc)
  | error error => exact .error error

theorem trans {R : β → β → Prop} (hR : ∀ b c d, R b c → R c d → R b d)
    {first second third : Except Error β} (h : Agree R first second) (h' : Agree R second third) :
    Agree R first third := by
  cases h with
  | ok hbc =>
    cases h' with
    | ok hcd => exact .ok (hR _ _ _ hbc hcd)
  | error error => exact h'

/-- Computations that go on alike from related results agree. -/
theorem bind {first : Except Error β} {second : Except Error γ} {f : β → Except Error β'}
    {g : γ → Except Error γ'} (h : Agree R first second)
    (hfg : ∀ b c, R b c → Agree S (f b) (g c)) : Agree S (first >>= f) (second >>= g) := by
  cases h with
  | ok hbc => exact hfg _ _ hbc
  | error error => exact .error error

theorem eq_error_iff {first : Except Error β} {second : Except Error γ} (h : Agree R first second)
    {error : Error} : first = .error error ↔ second = .error error := by
  cases h with
  | ok hbc =>
    constructor
    · intro hfirst
      cases hfirst
    · intro hsecond
      cases hsecond
  | error error' =>
    constructor
    · intro hfirst
      cases hfirst
      rfl
    · intro hsecond
      cases hsecond
      rfl

theorem exists_of_eq_ok {first : Except Error β} {second : Except Error γ} (h : Agree R first second)
    {b : β} (hb : first = .ok b) : ∃ c, second = .ok c ∧ R b c := by
  subst hb
  cases h with
  | ok hbc => exact ⟨_, rfl, hbc⟩

theorem agree_iff {first : Except Error β} {second : Except Error γ} :
    Agree R first second ↔
      (∃ b c, first = .ok b ∧ second = .ok c ∧ R b c) ∨
        ∃ error, first = .error error ∧ second = .error error := by
  constructor
  · rintro (hbc | error)
    · exact .inl ⟨_, _, rfl, rfl, hbc⟩
    · exact .inr ⟨_, rfl, rfl⟩
  · rintro (⟨_, _, rfl, rfl, hbc⟩ | ⟨error, rfl, rfl⟩)
    · exact .ok hbc
    · exact .error error

end Agree

end Error

end Univariate
