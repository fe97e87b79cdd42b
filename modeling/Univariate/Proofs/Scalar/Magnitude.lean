import Mathlib
import Univariate.Proofs.Scalar.Comparison

/-!
# Magnitudes of floating-point numbers

The patterns without a sign that stand for a number are in a total order, which is the order of their exponents and, where these are equal, of their mantissas, with zero below and infinity above. On these patterns the maximum is the one of the order. The distance of two finite numbers is such a pattern: it may overflow, but it always is a number, and its sign bit is cleared.
-/

namespace Univariate

open Float.Model UnpackedFloat

/-! ### Numbers without a sign in the model -/

inductive Unsigned : UnpackedFloat → Prop where
  | zero : Unsigned (.zero .positive)
  | finite (m : ℕ) (e : ℤ) (hm : 0 < m) : Unsigned (.finite .positive m e hm)
  | infinity : Unsigned (.infinity .positive)

/-- The place in the order of the numbers without a sign. -/
def sizeKey : UnpackedFloat → WithTop (WithBot (ℤ ×ₗ ℕ))
  | .zero _ => ((⊥ : WithBot (ℤ ×ₗ ℕ)) : WithTop (WithBot (ℤ ×ₗ ℕ)))
  | .finite _ m e _ => ((toLex (e, m) : ℤ ×ₗ ℕ) : WithBot (ℤ ×ₗ ℕ))
  | .infinity _ | .notANumber => ⊤

namespace Unsigned

variable {u v : UnpackedFloat}

theorem lt_iff (hu : Unsigned u) (hv : Unsigned v) : u.lt v = true ↔ sizeKey u < sizeKey v := by
  rw [UnpackedFloat.lt, beq_iff_eq]
  cases hu with
  | zero =>
    cases hv with
    | zero => simp [UnpackedFloat.compare]
    | finite m e hm => exact iff_of_true rfl (WithTop.coe_lt_coe.mpr (WithBot.bot_lt_coe _))
    | infinity => exact iff_of_true rfl (WithTop.coe_lt_top _)
  | finite m e hm =>
    cases hv with
    | zero => simp [UnpackedFloat.compare, sizeKey]
    | finite m' e' hm' =>
      simp [UnpackedFloat.compare, sizeKey, Prod.Lex.toLex_lt_toLex, Ordering.then_eq_lt,
        compare_lt_iff_lt]
    | infinity => exact iff_of_true rfl (WithTop.coe_lt_top _)
  | infinity =>
    cases hv with
    | zero => simp [UnpackedFloat.compare, sizeKey]
    | finite m e hm => simp [UnpackedFloat.compare, sizeKey]
    | infinity => simp [UnpackedFloat.compare]

theorem eq_of_sizeKey_eq (hu : Unsigned u) (hv : Unsigned v) (h : sizeKey u = sizeKey v) : u = v := by
  cases hu <;> cases hv <;> simp_all [sizeKey]

end Unsigned

/-! ### Distances -/

variable {format : Format} {u v : UnpackedFloat}

theorem round_ne_notANumber (s : Sign) (m : ℕ) (e : ℤ) :
    UnpackedFloat.round format s m e ≠ .notANumber := by
  simp only [UnpackedFloat.round, roundWithAccuracy]
  split
  · exact UnpackedFloat.noConfusion
  · exact UnpackedFloat.noConfusion

theorem sub_ne_notANumber (hu : u.isFinite = true) (hv : v.isFinite = true) :
    u.sub format v ≠ .notANumber := by
  cases u with
  | notANumber | infinity => cases hu
  | zero s =>
    cases v with
    | notANumber | infinity => cases hv
    | zero t =>
      rw [UnpackedFloat.sub]
      split
      · exact UnpackedFloat.noConfusion
      · exact UnpackedFloat.noConfusion
    | finite t m e hm => exact UnpackedFloat.noConfusion
  | finite s m e hm =>
    cases v with
    | notANumber | infinity => cases hv
    | zero t => exact UnpackedFloat.noConfusion
    | finite t m' e' hm' =>
      simp only [UnpackedFloat.sub, UnpackedFloat.normalize]
      split
      · exact round_ne_notANumber _ _ _
      · exact UnpackedFloat.noConfusion
      · exact round_ne_notANumber _ _ _

/-- Only what is not a number is packed as such. -/
theorem pack_ne_packedNaN (hu : u ≠ .notANumber) :
    u.pack Format.binary64 ≠ packedNaN Format.binary64 := by
  cases u with
  | notANumber => exact absurd rfl hu
  | infinity s => cases s <;> decide
  | zero s => cases s <;> decide
  | finite s m e hm =>
    intro h
    simp only [UnpackedFloat.pack] at h
    split at h
    case isTrue =>
      have hmantissa := congrArg unpackMantissa h
      rw [packedInfinity, packedNaN, unpackMantissa_packComponents,
        unpackMantissa_packComponents] at hmantissa
      exact absurd hmantissa (by decide)
    case isFalse hsmall =>
      have hexponent := congrArg unpackExponent h
      split at hexponent
      · rw [packedNaN, unpackExponent_packComponents, unpackExponent_packComponents,
          ← BitVec.toNat_inj, BitVec.toNat_ofNat, Nat.mod_eq_of_lt (by omega)] at hexponent
        change _ = 2 ^ 11 - 1 at hexponent
        omega
      · rw [packedNaN, unpackExponent_packComponents, unpackExponent_packComponents] at hexponent
        exact absurd hexponent (by decide)

/-! ### Patterns without a sign -/

def clearSign (b : BitVec Format.binary64.numBits) : BitVec Format.binary64.numBits :=
  b &&& 0x7fffffffffffffff#64

theorem unpackExponent_clearSign (b : BitVec Format.binary64.numBits) :
    unpackExponent (clearSign b) = unpackExponent b := by
  rw [unpackExponent_def, unpackExponent_def, clearSign, BitVec.extractLsb'_and]
  exact BitVec.and_allOnes

theorem unpackMantissa_clearSign (b : BitVec Format.binary64.numBits) :
    unpackMantissa (clearSign b) = unpackMantissa b := by
  rw [unpackMantissa_def, unpackMantissa_def, clearSign, BitVec.extractLsb'_and]
  exact BitVec.and_allOnes

theorem unpackSign_clearSign (b : BitVec Format.binary64.numBits) : unpackSign (clearSign b) = 0#1 := by
  rw [unpackSign_def, clearSign, BitVec.extractLsb'_and]
  exact BitVec.and_zero

theorem unsigned_unpack_clearSign {b : BitVec Format.binary64.numBits} (hb : isNaNBits b = false) :
    Unsigned (UnpackedFloat.unpack Format.binary64 (clearSign b)) := by
  rw [isNaNBits, decide_eq_false_iff_not, not_and_not_right] at hb
  simp only [UnpackedFloat.unpack, unpackExponent_clearSign, unpackMantissa_clearSign, unpackSign_clearSign]
  split
  case isTrue hexponent =>
    rw [if_pos (hb hexponent)]
    exact .infinity
  case isFalse =>
    split
    case isTrue =>
      split
      · exact .zero
      · exact .finite _ _ _
    case isFalse => exact .finite _ _ _

/-! ### Magnitudes -/

namespace Binary64

def model (a : Binary64) : UnpackedFloat := a.toFloat.toModel.unpack

def IsMagnitude (a : Binary64) : Prop := Unsigned a.model

theorem isNaN_eq_false_iff {a : Binary64} : a.isNaN = false ↔ a.model ≠ .notANumber := by
  rw [← Bool.not_eq_true, isNaN]
  exact not_congr UnpackedFloat.isNaN_iff

theorem eq_of_model_eq {a b : Binary64} (ha : a.isNaN = false) (hb : b.isNaN = false)
    (h : a.model = b.model) : a = b := by
  refine eq_of_toFloat_eq ha hb ?_
  rw [← Float.toBits_inj, ← UInt64.toBitVec_inj]
  exact (unpack_inj_of_valid a.toFloat.toModel.valid b.toFloat.toModel.valid).mp h

theorem isNaN_ofFloat_pack {u : UnpackedFloat} (hu : u ≠ .notANumber) :
    (ofFloat ⟨Float.Model.pack u⟩).isNaN = false := by
  have hpack : Float.isNaN ⟨Float.Model.pack u⟩ = false := by
    rw [← Bool.not_eq_true]
    exact mt (isNaN_unpack_iff_of_valid valid_pack).mp (pack_ne_packedNaN hu)
  rw [ofFloat, hpack]
  exact (congrArg Float.isNaN (Float.ofBits_toBits _)).trans hpack

theorem isNaN_sub {a b : Binary64} (ha : Measured.isFinite a = true) (hb : Measured.isFinite b = true) :
    (a - b).isNaN = false := by
  have hnumber {c : Binary64} (hc : Measured.isFinite c = true) : c.isNaN = false := by
    rw [isNaN_eq_false_iff]
    intro h
    change c.model.isFinite = true at hc
    rw [h] at hc
    cases hc
  change (arithmetic (· - ·) a b).isNaN = false
  rw [arithmetic, hnumber ha, hnumber hb]
  exact isNaN_ofFloat_pack (sub_ne_notANumber ha hb)

theorem isMagnitude_abs {a : Binary64} (ha : a.isNaN = false) : (Measured.abs a).IsMagnitude := by
  have hbits : (Measured.abs a).bits.toBitVec = clearSign a.bits.toBitVec := rfl
  have hnan : isNaNBits (clearSign a.bits.toBitVec) = false := by
    rw [isNaNBits, unpackExponent_clearSign, unpackMantissa_clearSign]
    exact (isNaN_eq_isNaNBits a).symm.trans ha
  have hmodel : (Measured.abs a).toFloat.toBits.toBitVec = clearSign a.bits.toBitVec := by
    rw [toBits_toFloat, hbits, hnan, if_neg Bool.false_ne_true]
  rw [IsMagnitude, model]
  change Unsigned (UnpackedFloat.unpack Format.binary64 (Measured.abs a).toFloat.toBits.toBitVec)
  rw [hmodel]
  exact unsigned_unpack_clearSign ((isNaN_eq_isNaNBits a).symm.trans ha)

theorem IsMagnitude.isNaN {a : Binary64} (ha : a.IsMagnitude) : a.isNaN = false := by
  rw [isNaN_eq_false_iff]
  intro h
  rw [IsMagnitude, h] at ha
  cases ha

noncomputable instance : LinearOrder {a : Binary64 // a.IsMagnitude} :=
  .lift' (fun a => sizeKey a.val.model) fun a b h =>
    Subtype.ext (eq_of_model_eq a.property.isNaN b.property.isNaN (a.property.eq_of_sizeKey_eq b.property h))

theorem max_eq (a b : {a : Binary64 // a.IsMagnitude}) : max a.val b.val = (max a b).val := by
  have hlt : a.val < b.val ↔ sizeKey a.val.model < sizeKey b.val.model :=
    decide_eq_true_iff.trans (a.property.lt_iff b.property)
  change (if a.val.isNaN then b.val else if a.val < b.val then b.val else a.val) = _
  rw [a.property.isNaN, if_neg Bool.false_ne_true]
  split
  case isTrue h =>
    have hle : a ≤ b := (hlt.mp h).le
    rw [max_eq_right hle]
  case isFalse h =>
    have hle : b ≤ a := not_lt.mp (mt hlt.mpr h)
    rw [max_eq_left hle]

end Binary64

end Univariate
