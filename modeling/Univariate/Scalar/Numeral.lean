import Univariate.Scalar.Text

/-!
# Numerals

A numeral is a row of decimal digits with an optional minus sign in front and an optional point. The digits that a tree shows for a number that is not small and whole could come from any printing of numbers that never uses an exponent and whose numerals read back as the number, that is, round to it. The shortest digits of `Unpacked.text` are one such printing.
-/

namespace Univariate

/-- The sign and the absolute value that a numeral stands for. -/
inductive Numeral : List Char → Bool → Decimal → Prop where
  | whole (negative : Bool) (digits : List Char) :
    digits ≠ [] → (∀ c ∈ digits, c.isDigit = true) →
    Numeral (Unpacked.sign negative ++ digits) negative ⟨Nat.ofDigitChars 10 digits 0, 0⟩
  | pointed (negative : Bool) (digits fraction : List Char) :
    digits ≠ [] → (∀ c ∈ digits ++ fraction, c.isDigit = true) →
    Numeral (Unpacked.sign negative ++ (digits ++ '.' :: fraction)) negative
      ⟨Nat.ofDigitChars 10 (digits ++ fraction) 0, -fraction.length⟩

/-- The form with other digits, if it shows digits with a point or more of them than a whole number may have. -/
def NumberForm.withDigits (digits : String) : NumberForm → NumberForm
  | .decimal _ => .decimal digits
  | form => form

namespace Binary64

/-- The numbers as a tree shows them when the library prints them on their own by `print`. -/
@[reducible] def literalBy (print : Binary64 → String) : Literal Binary64 :=
  ⟨fun a => a.unpack.form.withDigits (print a), fun a => a.unpack.isNegative⟩

/-- Every number other than zero is printed as a numeral that rounds to the number. -/
def ReadsBack (print : Binary64 → String) : Prop :=
  ∀ a negative magnitude, a.unpack = .nonzero negative magnitude →
    ∃ d, Numeral (print a).toList negative d ∧ magnitude.holds d.exponent d.digits = true

theorem literalBy_text : literalBy ScalarText.text = inferInstanceAs (Literal Binary64) := by
  have hform (a : Binary64) : a.unpack.form.withDigits a.unpack.text = a.unpack.form := by
    cases a.unpack with
    | nonzero negative magnitude =>
      simp only [Unpacked.form]
      cases Unpacked.natural? magnitude with
      | none => rfl
      | some n =>
        dsimp only
        split <;> rfl
    | _ => rfl
  change Literal.mk _ _ = Literal.mk _ _
  congr 1
  funext a
  exact hform a

end Binary64

end Univariate
