import Univariate.Proofs.Decimal.Rounding
import Univariate.Proofs.Scalar.Comparison

/-!
# Taking patterns apart

What a pattern is taken apart into has the shape that the numbers of its format have. Nothing of the pattern is lost unless it stands for no number, so patterns that are taken apart alike but for the sign of a zero are alike.
-/

namespace Univariate

namespace BinaryFormat

variable {format : BinaryFormat} {bits bits' : Nat} {negative : Bool} {r : RoundingInterval}

theorem fraction_lt (format : BinaryFormat) (bits : Nat) :
    bits % Nat.pow 2 format.fractionBits < Nat.pow 2 format.fractionBits :=
  Nat.mod_lt bits (Nat.pow_pos Nat.two_pos)

theorem fits_of_unpack (h : format.unpack bits = .nonzero negative r) : r.Fits format := by
  have hfraction := format.fraction_lt bits
  rw [unpack] at h
  split_ifs at h
  · obtain ⟨_, rfl⟩ := Unpacked.nonzero.inj h
    constructor <;> simp only [Bool.false_eq_true, false_iff] <;> omega
  · obtain ⟨_, rfl⟩ := Unpacked.nonzero.inj h
    constructor <;> simp only [Bool.and_eq_true, beq_iff_eq, bne_iff_ne] <;> omega

def join (format : BinaryFormat) (negative : Bool) (field fraction : Nat) : Nat :=
  Nat.pow 2 format.fractionBits * (Nat.pow 2 format.exponentBits * (if negative then 1 else 0) + field) + fraction

/-- The pattern that is taken apart into this; there is more than one for what is not a number. -/
def pack (format : BinaryFormat) : Unpacked → Nat
  | .nan => 0
  | .infinite negative => format.join negative (Nat.pow 2 format.exponentBits - 1) 0
  | .zero negative => format.join negative 0 0
  | .nonzero negative r =>
    if r.significand < Nat.pow 2 format.fractionBits then format.join negative 0 r.significand
    else
      format.join negative (r.exponent + 1 - format.leastExponent).toNat
        (r.significand - Nat.pow 2 format.fractionBits)

theorem join_fields (hbits : bits < Nat.pow 2 (format.fractionBits + format.exponentBits) * 2) :
    format.join (bits / Nat.pow 2 (format.fractionBits + format.exponentBits) % 2 == 1)
      (bits / Nat.pow 2 format.fractionBits % Nat.pow 2 format.exponentBits)
      (bits % Nat.pow 2 format.fractionBits) = bits := by
  have hsign : (if bits / Nat.pow 2 (format.fractionBits + format.exponentBits) % 2 == 1 then 1 else 0) =
      bits / Nat.pow 2 format.fractionBits / Nat.pow 2 format.exponentBits := by
    have hlt := Nat.div_lt_of_lt_mul hbits
    have hwidths : Nat.pow 2 format.fractionBits * Nat.pow 2 format.exponentBits =
        Nat.pow 2 (format.fractionBits + format.exponentBits) := (Nat.pow_add 2 _ _).symm
    rw [Nat.div_div_eq_div_mul, hwidths, Nat.mod_eq_of_lt hlt]
    generalize bits / Nat.pow 2 (format.fractionBits + format.exponentBits) = sign at hlt
    simp only [beq_iff_eq]
    split <;> omega
  rw [join, hsign, Nat.div_add_mod, Nat.div_add_mod]

theorem pack_unpack (hbits : bits < Nat.pow 2 (format.fractionBits + format.exponentBits) * 2)
    (hnan : format.unpack bits ≠ .nan) : format.pack (format.unpack bits) = bits := by
  have hfraction := format.fraction_lt bits
  have hjoin := join_fields hbits
  rw [unpack] at hnan ⊢
  split_ifs at hnan ⊢ with hlast hzero hfirst hzero
  · rw [pack]
    rw [hzero] at hjoin
    convert hjoin using 2
    omega
  · exact absurd rfl hnan
  · rw [pack]
    rwa [hfirst, hzero] at hjoin
  · rw [pack, if_pos hfraction]
    rwa [hfirst] at hjoin
  · rw [pack, if_neg (by simp only; omega)]
    convert hjoin using 2 <;> simp only <;> omega

end BinaryFormat

namespace Binary64

variable {a b : Binary64} {negative : Bool} {r : RoundingInterval}

theorem fits_of_unpack (h : a.unpack = .nonzero negative r) : r.Fits .binary64 :=
  BinaryFormat.fits_of_unpack h

theorem eq_of_unpack_eq (h : a.unpack = b.unpack) (hnan : a.unpack ≠ .nan) : a = b := by
  have hbits : a.bits.toNat = b.bits.toNat := by
    have ha : BinaryFormat.binary64.pack a.unpack = a.bits.toNat :=
      BinaryFormat.pack_unpack a.bits.toNat_lt hnan
    rw [h] at hnan ha
    have hb : BinaryFormat.binary64.pack b.unpack = b.bits.toNat :=
      BinaryFormat.pack_unpack b.bits.toNat_lt hnan
    exact ha.symm.trans hb
  cases a
  cases b
  exact congrArg mk (UInt64.toNat_inj.mp hbits)

theorem alike_of_unpack
    (h : a.unpack = b.unpack ∨ ∃ s t, a.unpack = .zero s ∧ b.unpack = .zero t) : a.Alike b := by
  have hzero {c : Binary64} {s : Bool} (hc : c.unpack = .zero s) : (c == 0) = true := by
    have hnan : c.unpack ≠ .nan := by
      rw [hc]
      exact Unpacked.noConfusion
    rw [beq_zero_iff]
    cases s with
    | false => exact .inl (eq_of_unpack_eq (b := 0) hc hnan)
    | true => exact .inr (eq_of_unpack_eq (b := -0) hc hnan)
  rcases h with h | ⟨s, t, ha, hb⟩
  · by_cases hnan : a.unpack = .nan
    · exact .inr (.inr ⟨unpack_eq_nan_iff.mp hnan, unpack_eq_nan_iff.mp (h.symm.trans hnan)⟩)
    · exact .inl (eq_of_unpack_eq h hnan)
  · exact .inr (.inl ⟨hzero ha, hzero hb⟩)

end Binary64

end Univariate
