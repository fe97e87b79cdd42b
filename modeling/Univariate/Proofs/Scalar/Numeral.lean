import Univariate.Proofs.Decimal.Shortest
import Univariate.Proofs.Scalar.Unpacked

/-!
# The texts of numbers

A numeral has one sign and one value. So two numbers that are shown by the same numeral have a point of their rounding intervals in common and are the same, while zero has the only numeral of value zero and what is not finite is shown by words with letters. In this way the text of a number inside a tree tells the number up to the sign of a zero and the bits of what is not a number, whichever printing its digits come from.
-/

namespace Univariate

/-! ### Reading a numeral -/

namespace Numeral

variable {cs : List Char} {negative negative' : Bool} {d d' : Decimal}

theorem ne_of_isDigit {c e : Char} (hc : c.isDigit = true) (he : e.isDigit = false) : c ≠ e := by
  rintro rfl
  rw [hc] at he
  cases he

theorem head_sign_append (negative : Bool) {digits : List Char} (s : List Char) (hne : digits ≠ [])
    (hdigits : ∀ c ∈ digits, c.isDigit = true) :
    ((Unpacked.sign negative ++ (digits ++ s)).head? == some '-') = negative := by
  obtain ⟨c, t, rfl⟩ := List.exists_cons_of_ne_nil hne
  have hc : c ≠ '-' := ne_of_isDigit (hdigits c List.mem_cons_self) (by decide)
  cases negative with
  | false => exact beq_eq_false_iff_ne.mpr fun h => hc (Option.some.inj h)
  | true => rfl

theorem filter_sign_append (negative : Bool) (s : List Char) :
    (Unpacked.sign negative ++ s).filter Char.isDigit = s.filter Char.isDigit := by
  cases negative <;> rfl

theorem dropWhile_sign_append (negative : Bool) {digits : List Char} (s : List Char)
    (hdigits : ∀ c ∈ digits, c.isDigit = true) :
    (Unpacked.sign negative ++ (digits ++ s)).dropWhile (· != '.') = s.dropWhile (· != '.') := by
  have hskip : (digits ++ s).dropWhile (· != '.') = s.dropWhile (· != '.') := by
    apply List.dropWhile_append_of_pos
    intro c hc
    exact bne_iff_ne.mpr (ne_of_isDigit (hdigits c hc) (by decide))
  rw [← hskip]
  cases negative <;> rfl

/-- The sign and the value are read off the characters. -/
theorem eq_read (h : Numeral cs negative d) :
    (cs.head? == some '-') = negative ∧
      d = ⟨Nat.ofDigitChars 10 (cs.filter Char.isDigit) 0, -((cs.dropWhile (· != '.')).length - 1 : ℕ)⟩ := by
  cases h with
  | whole _ digits hne hdigits =>
    have hhead := head_sign_append negative [] hne hdigits
    have hpoint := dropWhile_sign_append negative [] hdigits
    rw [List.append_nil] at hhead hpoint
    refine ⟨hhead, ?_⟩
    rw [filter_sign_append, List.filter_eq_self.mpr hdigits, hpoint]
    rfl
  | pointed _ digits fraction hne hdigits =>
    obtain ⟨hbefore, hafter⟩ := List.forall_mem_append.mp hdigits
    refine ⟨head_sign_append negative _ hne hbefore, ?_⟩
    rw [filter_sign_append, List.filter_append, List.filter_cons_of_neg (by decide),
      List.filter_eq_self.mpr hbefore, List.filter_eq_self.mpr hafter, dropWhile_sign_append negative _ hbefore]
    rfl

theorem unique (h : Numeral cs negative d) (h' : Numeral cs negative' d') :
    negative = negative' ∧ d = d' :=
  ⟨h.eq_read.1.symm.trans h'.eq_read.1, h.eq_read.2.trans h'.eq_read.2.symm⟩

theorem mem (h : Numeral cs negative d) : ∀ c ∈ cs, c = '-' ∨ c = '.' ∨ c.isDigit = true := by
  have hsign : ∀ c ∈ Unpacked.sign negative, c = '-' ∨ c = '.' ∨ c.isDigit = true := by
    cases negative <;> simp [Unpacked.sign]
  cases h with
  | whole _ digits _ hdigits =>
    exact List.forall_mem_append.mpr ⟨hsign, fun c hc => .inr (.inr (hdigits c hc))⟩
  | pointed _ digits fraction _ hdigits =>
    obtain ⟨hbefore, hafter⟩ := List.forall_mem_append.mp hdigits
    refine List.forall_mem_append.mpr ⟨hsign, List.forall_mem_append.mpr ⟨?_, List.forall_mem_cons.mpr ⟨?_, ?_⟩⟩⟩
    · exact fun c hc => .inr (.inr (hbefore c hc))
    · exact .inr (.inl rfl)
    · exact fun c hc => .inr (.inr (hafter c hc))

theorem ne_nil (h : Numeral cs negative d) : cs ≠ [] := by
  cases h with
  | whole _ digits hne _ => exact List.append_ne_nil_of_right_ne_nil _ hne
  | pointed _ digits fraction _ _ =>
    exact List.append_ne_nil_of_right_ne_nil _ (List.append_ne_nil_of_right_ne_nil _ (List.cons_ne_nil _ _))

theorem of_natCast (negative : Bool) (n : ℕ) :
    Numeral (Unpacked.sign negative ++ Nat.toDigits 10 n) negative ⟨n, 0⟩ := by
  have h : Numeral _ negative _ := .whole negative (Nat.toDigits 10 n) Nat.toDigits_ne_nil
    fun _ => Decimal.isDigit_of_mem_digitsOf
  rwa [Nat.ofDigitChars_ten_toDigits] at h

end Numeral

/-! ### The texts inside a tree -/

open RoundingInterval (Fits holds_iff_contains)

/-- Whether a tree can show the number by this text. -/
def Unpacked.Shows : Unpacked → List Char → Prop
  | .nan, cs => cs = "NaN".toList
  | .infinite negative, cs => cs = sign negative ++ "Infinity".toList
  | .zero _, cs => cs = ['0']
  | .nonzero negative r, cs => ∃ d, Numeral cs negative d ∧ r.holds d.exponent d.digits = true

theorem RoundingInterval.not_holds_zero {r : RoundingInterval} (hpos : 0 < r.significand) :
    ¬r.holds 0 0 = true := by
  intro h
  have hvalue := (holds_iff_contains.mp h).pos hpos
  rw [Decimal.value, Nat.cast_zero, zero_mul] at hvalue
  exact lt_irrefl 0 hvalue

namespace Unpacked.Shows

open RoundingInterval (not_holds_zero)

variable {u u' : Unpacked} {cs : List Char} {negative : Bool} {d : Decimal} {r : RoundingInterval}

theorem eq_nan (h : u.Shows "NaN".toList) : u = .nan := by
  cases u with
  | nan => rfl
  | infinite negative => cases negative <;> exact absurd h (by rw [Shows]; decide)
  | zero negative => exact absurd h (by rw [Shows]; decide)
  | nonzero negative r =>
    obtain ⟨d, hd, _⟩ := h
    exact absurd (hd.mem 'N' (by decide)) (by decide)

theorem eq_infinite (h : u.Shows (sign negative ++ "Infinity".toList)) : u = .infinite negative := by
  cases u with
  | nan => cases negative <;> exact absurd h (by rw [Shows]; decide)
  | infinite negative' =>
    cases negative <;> cases negative'
    · rfl
    · exact absurd h (by rw [Shows]; decide)
    · exact absurd h (by rw [Shows]; decide)
    · rfl
  | zero negative' => cases negative <;> exact absurd h (by rw [Shows]; decide)
  | nonzero negative' r =>
    obtain ⟨d, hd, _⟩ := h
    exact absurd (hd.mem 'I' (List.mem_append_right _ (by decide))) (by decide)

theorem eq_zero (h : u.Shows ['0']) (hfits : ∀ negative r, u = .nonzero negative r → r.Fits .binary64) :
    ∃ negative, u = .zero negative := by
  cases u with
  | nan => exact absurd h (by rw [Shows]; decide)
  | infinite negative => cases negative <;> exact absurd h (by rw [Shows]; decide)
  | zero negative => exact ⟨negative, rfl⟩
  | nonzero negative r =>
    obtain ⟨d, hd, hholds⟩ := h
    obtain ⟨_, rfl⟩ := hd.unique (Numeral.of_natCast false 0)
    exact absurd hholds (not_holds_zero (hfits negative r rfl).pos)

theorem eq_nonzero (h : u.Shows cs) (hfits : ∀ negative r, u = .nonzero negative r → r.Fits .binary64)
    (hd : Numeral cs negative d) (hholds : r.holds d.exponent d.digits = true) (hr : r.Fits .binary64) :
    u = .nonzero negative r := by
  cases u with
  | nan =>
    rw [Shows] at h
    subst h
    exact absurd (hd.mem 'N' (by decide)) (by decide)
  | infinite negative' =>
    rw [Shows] at h
    subst h
    exact absurd (hd.mem 'I' (List.mem_append_right _ (by decide))) (by decide)
  | zero negative' =>
    rw [Shows] at h
    subst h
    obtain ⟨_, rfl⟩ := hd.unique (Numeral.of_natCast false 0)
    exact absurd hholds (not_holds_zero hr.pos)
  | nonzero negative' r' =>
    obtain ⟨d', hd', hholds'⟩ := h
    obtain ⟨rfl, rfl⟩ := hd.unique hd'
    have hrr' := (hfits negative r' rfl).eq_of_contains hr (holds_iff_contains.mp hholds')
      (holds_iff_contains.mp hholds)
    rw [hrr']

theorem same (h : u.Shows cs) (h' : u'.Shows cs) (hfits : ∀ negative r, u = .nonzero negative r → r.Fits .binary64)
    (hfits' : ∀ negative r, u' = .nonzero negative r → r.Fits .binary64) :
    u = u' ∨ ∃ s t, u = .zero s ∧ u' = .zero t := by
  cases u' with
  | nan =>
    rw [Shows] at h'
    subst h'
    exact .inl h.eq_nan
  | infinite negative =>
    rw [Shows] at h'
    subst h'
    exact .inl h.eq_infinite
  | zero negative =>
    rw [Shows] at h'
    subst h'
    obtain ⟨s, hs⟩ := h.eq_zero hfits
    exact .inr ⟨s, negative, hs, rfl⟩
  | nonzero negative r =>
    obtain ⟨d, hd, hholds⟩ := h'
    exact .inl (h.eq_nonzero hfits hd hholds (hfits' negative r rfl))

end Unpacked.Shows

namespace Binary64

variable {print : Binary64 → String} {a b : Binary64}

/-- A whole number is shown by its own digits, which stand for the number exactly. -/
theorem exists_numeral_whole {negative : Bool} {r : RoundingInterval} {n : ℕ}
    (hpos : 0 < r.significand) (h : Unpacked.natural? r = some n) :
    ∃ d, Numeral (NumberForm.whole (if negative then -n else n)).text.toList negative d ∧
      r.holds d.exponent d.digits = true := by
  have hcontains : r.Contains (Decimal.value ⟨n, 0⟩) := by
    rw [RoundingInterval.value_natural? h]
    exact RoundingInterval.contains_self hpos
  have htext : (NumberForm.whole (if negative then -n else n)).text.toList =
      Unpacked.sign negative ++ Nat.toDigits 10 n := by
    have hn : 0 < n := by
      have hvalue := hcontains.pos hpos
      rw [Decimal.value, zpow_zero, mul_one] at hvalue
      exact Nat.cast_pos.mp hvalue
    rw [NumberForm.text, Int.toString_eq_repr, Int.repr_eq_if]
    cases negative with
    | false =>
      simp only [Bool.false_eq_true, if_false]
      rw [if_pos (Int.natCast_nonneg n), Int.toNat_natCast, Nat.toList_repr]
      rfl
    | true =>
      simp only [if_true]
      rw [if_neg (by omega), neg_neg, Int.toNat_natCast, String.toList_append, Nat.toList_repr]
      rfl
  rw [htext]
  exact ⟨_, .of_natCast negative n, holds_iff_contains.mpr hcontains⟩

theorem shows_text (hprint : ReadsBack print) (a : Binary64) :
    a.unpack.Shows (@Literal.text _ (literalBy print) a).toList := by
  change a.unpack.Shows (a.unpack.form.withDigits (print a)).text.toList
  cases h : a.unpack with
  | nan => rfl
  | infinite negative =>
    have htext : (NumberForm.infinite negative).text.toList =
        Unpacked.sign negative ++ "Infinity".toList := by
      cases negative <;> decide
    exact htext
  | zero negative =>
    have htext : (NumberForm.whole 0).text.toList = ['0'] := by
      decide
    exact htext
  | nonzero negative r =>
    rw [Unpacked.Shows, Unpacked.form]
    cases hnatural : Unpacked.natural? r with
    | none => exact hprint a negative r h
    | some n =>
      dsimp only
      split
      · exact exists_numeral_whole (fits_of_unpack h).pos hnatural
      · exact hprint a negative r h

theorem alike_of_text_eq (hprint : ReadsBack print)
    (h : @Literal.text _ (literalBy print) a = @Literal.text _ (literalBy print) b) : a.Alike b := by
  have ha := shows_text hprint a
  rw [h] at ha
  exact alike_of_unpack (ha.same (shows_text hprint b) (fun _ _ => fits_of_unpack) fun _ _ => fits_of_unpack)

theorem Alike.form_literalBy_eq (print : Binary64 → String) (h : a.Alike b) :
    (literalBy print).form a = (literalBy print).form b := by
  change a.unpack.form.withDigits (print a) = b.unpack.form.withDigits (print b)
  have hzero {c : Binary64} (hc : (c == 0) = true) : c.unpack.form.withDigits (print c) = .whole 0 := by
    rcases beq_zero_iff.mp hc with rfl | rfl <;> rfl
  have hnan {c : Binary64} (hc : c.isNaN = true) : c.unpack.form.withDigits (print c) = .nan := by
    rw [unpack_eq_nan_iff.mpr hc]
    rfl
  rcases h with rfl | ⟨ha, hb⟩ | ⟨ha, hb⟩
  · rfl
  · rw [hzero ha, hzero hb]
  · rw [hnan ha, hnan hb]

theorem readsBack_text : ReadsBack ScalarText.text := by
  intro a negative r h
  have htext : (ScalarText.text a).toList = Unpacked.sign negative ++ r.shortest.positional := by
    change a.unpack.text.toList = _
    rw [h, Unpacked.text, String.toList_ofList]
  obtain ⟨d, hd, hvalue⟩ := r.shortest.exists_numeral negative
  rw [htext]
  refine ⟨d, hd, holds_iff_contains.mpr ?_⟩
  have hcontains := RoundingInterval.contains_shortest (fits_of_unpack h).pos
  rwa [← hvalue] at hcontains

end Binary64

end Univariate
