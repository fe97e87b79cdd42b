import Mathlib
import Univariate.Scalar.Text

/-!
# Comparing floating-point numbers

Comparison and arithmetic look at the number that a pattern stands for, which Lean's own model of floating-point numbers takes apart. Two patterns compare as equal exactly when they are alike and stand for a number at all. What is computed from patterns that are alike is alike again: of the operands the model forgets the bits of what is not a number, and the sign of a zero shows in a sum or a product only as the sign of a zero, if the operands are finite at all.
-/

namespace Univariate

open Float.Model

/-! ### The sign of a zero in the model -/

def SameNumber (u v : UnpackedFloat) : Prop := u = v ∨ ∃ s t, u = .zero s ∧ v = .zero t

namespace SameNumber

variable {format : Format} {u u' v v' : UnpackedFloat}

theorem add (hu : SameNumber u u') (hv : SameNumber v v') :
    SameNumber (u.add format v) (u'.add format v') := by
  -- The sum of two zeros is a zero of either sign.
  have hzeros (s t s' t' : UnpackedFloat.Sign) :
      SameNumber ((UnpackedFloat.zero s).add format (.zero t))
        ((UnpackedFloat.zero s').add format (.zero t')) := by
    simp only [UnpackedFloat.add]
    split <;> split <;> exact .inr ⟨_, _, rfl, rfl⟩
  rcases hu with rfl | ⟨s, s', rfl, rfl⟩ <;> rcases hv with rfl | ⟨t, t', rfl, rfl⟩
  · exact .inl rfl
  · cases u with
    | zero s => exact hzeros s t s t'
    | _ => exact .inl rfl
  · cases v with
    | zero t => exact hzeros s t s' t
    | _ => exact .inl rfl
  · exact hzeros s t s' t'

theorem mul (hu : SameNumber u u') (hv : SameNumber v v') :
    SameNumber (u.mul format v) (u'.mul format v') := by
  rcases hu with rfl | ⟨s, s', rfl, rfl⟩ <;> rcases hv with rfl | ⟨t, t', rfl, rfl⟩
  · exact .inl rfl
  · cases u with
    | zero | finite => exact .inr ⟨_, _, rfl, rfl⟩
    | infinity | notANumber => exact .inl rfl
  · cases v with
    | zero | finite => exact .inr ⟨_, _, rfl, rfl⟩
    | infinity | notANumber => exact .inl rfl
  · exact .inr ⟨_, _, rfl, rfl⟩

end SameNumber

namespace Binary64

/-! ### The number of a pattern -/

theorem isNaN_iff {a : Binary64} : a.isNaN = true ↔ a.toFloat = Float.nan := by
  rw [isNaN, Float.isNaN_eq_decide_eq_nan, decide_eq_true_iff]

/-- A number keeps its bits; all that is not a number gets the same ones. -/
theorem toBits_toFloat (a : Binary64) :
    a.toFloat.toBits.toBitVec =
      if @UnpackedFloat.isNaNBits Format.binary64 a.bits.toBitVec
      then UnpackedFloat.packedNaN Format.binary64 else a.bits.toBitVec :=
  @UnpackedFloat.pack_unpack Format.binary64 a.bits.toBitVec (by decide)

theorem isNaN_eq_isNaNBits (a : Binary64) :
    a.isNaN = @UnpackedFloat.isNaNBits Format.binary64 a.bits.toBitVec := by
  have hnan : a.toFloat = Float.nan ↔
      a.toFloat.toBits.toBitVec = UnpackedFloat.packedNaN Format.binary64 := by
    rw [← Float.toBits_inj, ← UInt64.toBitVec_inj]
    rfl
  rw [Bool.eq_iff_iff, isNaN_iff, hnan, toBits_toFloat]
  split
  case isTrue h => simp only [h]
  case isFalse h =>
    constructor
    · intro hbits
      rw [hbits] at h
      exact absurd UnpackedFloat.isNaNBits_packedNaN h
    · intro hbits
      exact absurd hbits h

/-- What is not a number is taken apart as such, and nothing else is. -/
theorem unpack_eq_nan_iff {a : Binary64} : a.unpack = .nan ↔ a.isNaN = true := by
  rw [isNaN_eq_isNaNBits, UnpackedFloat.isNaNBits, decide_eq_true_eq, ne_eq, ← BitVec.toNat_inj, ← BitVec.toNat_inj,
    UnpackedFloat.unpackExponent_def, BitVec.extractLsb'_toNat, UnpackedFloat.unpackMantissa_def,
    BitVec.extractLsb'_toNat, unpack, BinaryFormat.unpack]
  split_ifs <;> simp_all [Nat.shiftRight_eq_div_pow, Format.binary64, BinaryFormat.binary64]

theorem eq_of_toFloat_eq {a b : Binary64} (ha : a.isNaN = false) (hb : b.isNaN = false)
    (h : a.toFloat = b.toFloat) : a = b := by
  have hbits : a.bits = b.bits := by
    rw [isNaN_eq_isNaNBits] at ha hb
    have htoBits := congrArg (fun x => x.toBits.toBitVec) h
    simp only [toBits_toFloat, ha, hb] at htoBits
    exact UInt64.toBitVec_inj.mp htoBits
  cases a
  cases b
  exact congrArg mk hbits

theorem toFloat_zero : (0 : Binary64).toFloat = 0 := by
  rw [← Float.toBits_inj]
  decide

theorem toFloat_neg_zero : (-0 : Binary64).toFloat = -0 := by
  rw [← Float.toBits_inj]
  decide

/-! ### Numbers that compare as equal -/

variable {a a' b b' : Binary64}

theorem beq_self_iff : (a == a) = true ↔ a.isNaN = false := by
  rw [← Bool.not_eq_true, isNaN_iff]
  exact Float.beq_self_iff

instance : PartialEquivBEq Binary64 where
  symm h := PartialEquivBEq.symm (α := Float) h
  trans h h' := PartialEquivBEq.trans (α := Float) h h'

theorem isNaN_of_beq (h : (a == b) = true) : a.isNaN = false :=
  beq_self_iff.mp (PartialEquivBEq.trans h (PartialEquivBEq.symm h))

theorem beq_zero_iff : (a == 0) = true ↔ a = 0 ∨ a = -0 := by
  constructor
  · intro h
    have hnan := isNaN_of_beq h
    obtain ⟨_, _, h | ⟨_, h⟩ | ⟨h, _⟩⟩ := Float.beq_iff_ne_nan_and_eq.mp h
    · exact .inl (eq_of_toFloat_eq hnan (by decide) h)
    · rw [toFloat_zero, ← Float.toBits_inj] at h
      exact absurd h (by decide)
    · exact .inr (eq_of_toFloat_eq hnan (by decide) (h.trans toFloat_neg_zero.symm))
  · rintro (rfl | rfl) <;> decide

theorem alike_of_beq (h : (a == b) = true) : a.Alike b := by
  have ha := isNaN_of_beq h
  have hb := isNaN_of_beq (PartialEquivBEq.symm h)
  obtain ⟨_, _, h | ⟨hzero, hzero'⟩ | ⟨hzero, hzero'⟩⟩ := Float.beq_iff_ne_nan_and_eq.mp h
  · exact .inl (eq_of_toFloat_eq ha hb h)
  · have h0 := eq_of_toFloat_eq ha (by decide) (hzero.trans toFloat_zero.symm)
    have h0' := eq_of_toFloat_eq hb (by decide) (hzero'.trans toFloat_neg_zero.symm)
    exact .inr (.inl ⟨beq_zero_iff.mpr (.inl h0), beq_zero_iff.mpr (.inr h0')⟩)
  · have h0 := eq_of_toFloat_eq ha (by decide) (hzero.trans toFloat_neg_zero.symm)
    have h0' := eq_of_toFloat_eq hb (by decide) (hzero'.trans toFloat_zero.symm)
    exact .inr (.inl ⟨beq_zero_iff.mpr (.inr h0), beq_zero_iff.mpr (.inl h0')⟩)

/-- Numbers that are alike compare as equal if they are numbers. -/
theorem Alike.beq (h : a.Alike b) (hnan : a.isNaN = false) : (a == b) = true := by
  rcases h with rfl | ⟨ha, hb⟩ | ⟨ha, _⟩
  · exact beq_self_iff.mpr hnan
  · exact PartialEquivBEq.trans ha (PartialEquivBEq.symm hb)
  · rw [ha] at hnan
    cases hnan

/-! ### Computing with numbers that are alike -/

namespace Alike

@[refl] theorem refl (a : Binary64) : a.Alike a := .inl rfl

theorem isNaN_eq (h : a.Alike b) : a.isNaN = b.isNaN := by
  rcases h with rfl | ⟨ha, hb⟩ | ⟨ha, hb⟩
  · rfl
  · rw [isNaN_of_beq ha, isNaN_of_beq hb]
  · rw [ha, hb]

theorem beq_zero_eq (h : a.Alike b) : (a == 0) = (b == 0) := by
  rcases h with rfl | ⟨ha, hb⟩ | ⟨ha, hb⟩
  · rfl
  · rw [ha, hb]
  · have hnot {c : Binary64} (hc : c.isNaN = true) : (c == 0) = false := by
      by_contra hzero
      rw [isNaN_of_beq (Bool.of_not_eq_false hzero)] at hc
      cases hc
    rw [hnot ha, hnot hb]

/-- Numbers that are alike are taken apart alike, but for the sign of a zero. -/
theorem unpack_cases (h : a.Alike b) :
    a.unpack = b.unpack ∨ ∃ s t, a.unpack = .zero s ∧ b.unpack = .zero t := by
  have hzero {c : Binary64} (hc : (c == 0) = true) : ∃ s, c.unpack = .zero s := by
    rcases beq_zero_iff.mp hc with rfl | rfl
    · exact ⟨false, rfl⟩
    · exact ⟨true, rfl⟩
  rcases h with rfl | ⟨ha, hb⟩ | ⟨ha, hb⟩
  · exact .inl rfl
  · obtain ⟨s, hs⟩ := hzero ha
    obtain ⟨t, ht⟩ := hzero hb
    exact .inr ⟨s, t, hs, ht⟩
  · exact .inl (by rw [unpack_eq_nan_iff.mpr ha, unpack_eq_nan_iff.mpr hb])

theorem form_eq (h : a.Alike b) : Literal.form a = Literal.form b := by
  change a.unpack.form = b.unpack.form
  rcases h.unpack_cases with h | ⟨s, t, ha, hb⟩
  · rw [h]
  · rw [ha, hb]
    rfl

theorem isNegative_eq (h : a.Alike b) : Literal.isNegative a = Literal.isNegative b := by
  change a.unpack.isNegative = b.unpack.isNegative
  rcases h.unpack_cases with h | ⟨s, t, ha, hb⟩
  · rw [h]
  · rw [ha, hb]
    rfl

theorem sameNumber (h : a.Alike b) (hnan : a.isNaN = false) :
    SameNumber a.toFloat.toModel.unpack b.toFloat.toModel.unpack := by
  have hzero {c : Binary64} (hc : (c == 0) = true) :
      ∃ s, c.toFloat.toModel.unpack = .zero s := by
    rcases beq_zero_iff.mp hc with rfl | rfl
    · exact ⟨.positive, rfl⟩
    · exact ⟨.negative, rfl⟩
  rcases h with rfl | ⟨ha, hb⟩ | ⟨ha, _⟩
  · exact .inl rfl
  · obtain ⟨s, hs⟩ := hzero ha
    obtain ⟨t, ht⟩ := hzero hb
    exact .inr ⟨s, t, hs, ht⟩
  · rw [ha] at hnan
    cases hnan

theorem ofFloat {u v : UnpackedFloat} (h : SameNumber u v) :
    (ofFloat ⟨Float.Model.pack u⟩).Alike (ofFloat ⟨Float.Model.pack v⟩) := by
  rcases h with rfl | ⟨s, t, rfl, rfl⟩
  · exact .refl _
  · cases s <;> cases t <;> exact .inr (.inl (by decide))

/-- An operation that passes on what is not a number keeps numbers alike if it does so for all others. -/
theorem arithmetic {op : Float → Float → Float} (ha : a.Alike a') (hb : b.Alike b')
    (hop : a.isNaN = false → b.isNaN = false →
      (Binary64.ofFloat (op a.toFloat b.toFloat)).Alike (Binary64.ofFloat (op a'.toFloat b'.toFloat))) :
    (arithmetic op a b).Alike (Binary64.arithmetic op a' b') := by
  rw [Binary64.arithmetic, Binary64.arithmetic, ← ha.isNaN_eq, ← hb.isNaN_eq]
  cases hnan : a.isNaN with
  | true => exact ha
  | false =>
    cases hnan' : b.isNaN with
    | true => exact hb
    | false => exact hop hnan hnan'

theorem add (ha : a.Alike a') (hb : b.Alike b') : (a + b).Alike (a' + b') :=
  ha.arithmetic hb fun hnan hnan' => .ofFloat ((ha.sameNumber hnan).add (hb.sameNumber hnan'))

theorem mul (ha : a.Alike a') (hb : b.Alike b') : (a * b).Alike (a' * b') :=
  ha.arithmetic hb fun hnan hnan' => .ofFloat ((ha.sameNumber hnan).mul (hb.sameNumber hnan'))

end Alike

end Binary64

end Univariate
