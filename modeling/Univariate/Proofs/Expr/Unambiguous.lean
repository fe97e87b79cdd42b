import Univariate.Proofs.Expr.Reading
import Univariate.Proofs.Scalar.Numeral

/-!
# The text of a tree is unambiguous

Trees of floating-point numbers have the same text exactly when they are regroupings of each other up to numbers that are alike. The infinities and what is not a number are written as words that a careful choice of names does not use, and every other number by a numeral, which no name looks like.
-/

namespace Univariate

theorem not_isDigit_of_isAlpha {c : Char} (h : c.isAlpha = true) : c.isDigit = false := by
  have hcodes : 'A'.val.toNat = 65 ∧ 'a'.val.toNat = 97 ∧ '9'.val.toNat = 57 := ⟨rfl, rfl, rfl⟩
  simp only [Char.isAlpha, Char.isUpper, Char.isLower, Char.isDigit, Bool.or_eq_true, Bool.and_eq_true,
    Bool.and_eq_false_iff, decide_eq_true_eq, decide_eq_false_iff_not, UInt32.le_iff_toNat_le, ge_iff_le] at h ⊢
  omega

namespace Unpacked.Shows

variable {u : Unpacked} {cs : List Char}

theorem isWord (h : u.Shows cs) : IsWord cs := by
  cases u with
  | nan =>
    rw [Shows] at h
    rw [h]
    exact isWord_of_all (by decide) (by decide)
  | infinite negative =>
    rw [Shows] at h
    rw [h]
    cases negative <;> exact isWord_of_all (by decide) (by decide)
  | zero negative =>
    rw [Shows] at h
    rw [h]
    exact isWord_of_all (by decide) (by decide)
  | nonzero negative r =>
    obtain ⟨d, hd, _⟩ := h
    refine ⟨hd.ne_nil, ?_⟩
    intro c hc
    rcases hd.mem c hc with rfl | rfl | hdigit
    · decide
    · decide
    · simp [isWordChar, Char.isAlphanum, hdigit]

/-- A name other than the two words begins with a letter, which no other text does. -/
theorem ne_name (h : u.Shows cs) {name : String} (hname : Expr.IsIdentifier name)
    (hreserved : name ≠ "NaN" ∧ name ≠ "Infinity") : cs ≠ name.toList := by
  rintro rfl
  obtain ⟨c, t, hcons, hletter, _⟩ := hname
  cases u with
  | nan => exact hreserved.1 (String.toList_inj.mp h)
  | infinite negative =>
    cases negative with
    | false => exact hreserved.2 (String.toList_inj.mp h)
    | true =>
      obtain rfl := (List.cons.inj (hcons.symm.trans h)).1
      exact absurd hletter (by decide)
  | zero negative =>
    obtain rfl := (List.cons.inj (hcons.symm.trans h)).1
    exact absurd hletter (by decide)
  | nonzero negative r =>
    obtain ⟨d, hd, _⟩ := h
    rcases hd.mem c (hcons ▸ List.mem_cons_self) with rfl | rfl | hdigit
    · exact absurd hletter (by decide)
    · exact absurd hletter (by decide)
    · rw [not_isDigit_of_isAlpha hletter] at hdigit
      cases hdigit

end Unpacked.Shows

namespace Expr

variable {print : Binary64 → String} {a b : Expr Binary64}

/-- The text of a tree when the library prints numbers on their own by `print`. -/
def textBy (print : Binary64 → String) (e : Expr Binary64) : String :=
  @text Binary64 (Binary64.literalBy print) e

theorem textBy_text (e : Expr Binary64) : e.textBy ScalarText.text = e.text := by
  rw [textBy, Binary64.literalBy_text]

theorem legibleNumbers (hprint : Binary64.ReadsBack print) :
    @LegibleNumbers Binary64 (Binary64.literalBy print) Binary64.Alike :=
  @LegibleNumbers.mk Binary64 (Binary64.literalBy print) Binary64.Alike
    (fun n => (Binary64.shows_text hprint n).isWord)
    (fun n _ hname hreserved heq =>
      (Binary64.shows_text hprint n).ne_name hname hreserved (congrArg String.toList heq))
    fun _ _ => Binary64.alike_of_text_eq hprint

theorem textBy_eq_iff (hprint : Binary64.ReadsBack print)
    (hnames : NamedApart (a.occurrences ++ b.occurrences)) :
    a.textBy print = b.textBy print ↔ a.Regrouped Binary64.Alike b := by
  constructor
  · intro h
    exact @regrouped_of_text_eq _ (Binary64.literalBy print) _ _ (legibleNumbers hprint) hnames a b
      (List.subset_append_left _ _) (List.subset_append_right _ _) h
  · intro h
    exact @Regrouped.text_eq _ (Binary64.literalBy print) _ _ _
      (fun _ _ => Binary64.Alike.form_literalBy_eq print) (fun _ _ => Binary64.Alike.isNegative_eq) h

/-- The text of a tree, with the shortest digits or those of any printing of numbers that reads back, tells the tree up to regrouping, the sign of zeros and the bits of what is not a number. -/
theorem text_eq_iff_regrouped (hnames : NamedApart (a.occurrences ++ b.occurrences)) :
    (a.text = b.text ↔ a.Regrouped Binary64.Alike b) ∧
      ∀ print, Binary64.ReadsBack print → (a.textBy print = b.textBy print ↔ a.Regrouped Binary64.Alike b) := by
  refine ⟨?_, fun print hprint => textBy_eq_iff hprint hnames⟩
  rw [← textBy_text, ← textBy_text]
  exact textBy_eq_iff Binary64.readsBack_text hnames

theorem text_eq_iff_regrouped_signed_zeros :
    let x : Expr Binary64 := .var ⟨0, "x"⟩
    let y : Expr Binary64 := .var ⟨1, "y"⟩
    let e : Expr Binary64 := .add (.add x (.mul (.num (-1)) y)) (.sin (.num 0))
    let e' : Expr Binary64 := .add x (.add (.mul (.num (-1)) y) (.sin (.num (-0))))
    let d : Expr Binary64 := .add x (.mul (.num (-1)) (.add y (.sin (.num 0))))
    NamedApart [⟨0, "x"⟩, ⟨1, "y"⟩] ∧ Binary64.ReadsBack ScalarText.text ∧
      e.Regrouped Binary64.Alike e' ∧ ¬e.Regrouped Binary64.Alike d := by
  have hnames : NamedApart [⟨0, "x"⟩, ⟨1, "y"⟩] := by
    constructor
    · simp [IsIdentifier]
    · simp
    · simp [Var.beq_iff]
  refine ⟨hnames, Binary64.readsBack_text, ?_, ?_⟩
  · exact (text_eq_iff_regrouped (hnames.subset (by simp [Expr.sin]))).1.mp (by decide +kernel)
  · intro h
    have htext := ((text_eq_iff_regrouped (hnames.subset (by simp [Expr.sin]))).2 _ Binary64.readsBack_text).mpr h
    exact absurd htext (by decide +kernel)

end Expr

end Univariate
