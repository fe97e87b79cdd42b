import Mathlib.Algebra.Order.Field.Power
import Mathlib.Algebra.Order.Ring.Rat
import Mathlib.Data.Nat.Cast.Field
import Mathlib.Tactic.Linarith
import Mathlib.Tactic.Positivity
import Mathlib.Tactic.Ring
import Univariate.Scalar.Unpacked

/-!
# Rounding intervals

The comparison of a point of a decimal grid with the ends of a rounding interval is that of rational numbers, so it is the same for all ways to write one number. The rounding intervals of two numbers of one format have no point in common: between neighbours the two meet in the midpoint at most, which belongs to the one with the even significand.
-/

namespace Univariate

namespace Decimal

def value (d : Decimal) : ℚ := d.digits * 10 ^ d.exponent

end Decimal

/-- A power with a natural exponent that stops at zero makes up for the powers below. -/
theorem pow_toNat_eq (b : ℚ) (hb : b ≠ 0) (n : ℤ) : b ^ n.toNat = b ^ n * b ^ (-n).toNat := by
  rw [← zpow_natCast, ← zpow_natCast, ← zpow_add₀ hb]
  congr 1
  omega

namespace RoundingInterval

variable {r r' : RoundingInterval}

def quarter (r : RoundingInterval) : ℚ := 2 ^ (r.exponent - 2)

theorem quarter_pos (r : RoundingInterval) : 0 < r.quarter := by
  rw [quarter]
  positivity

/-- Whether the rational number rounds to the number. -/
def Contains (r : RoundingInterval) (x : ℚ) : Prop :=
  if r.significand % 2 = 0 then r.lowQuarters * r.quarter ≤ x ∧ x ≤ r.highQuarters * r.quarter
  else r.lowQuarters * r.quarter < x ∧ x < r.highQuarters * r.quarter

theorem exists_unit_scale (r : RoundingInterval) (place : ℤ) :
    ∃ w : ℚ, 0 < w ∧ (r.unit place : ℚ) = 10 ^ place * w ∧ (r.scale place : ℚ) = r.quarter * w := by
  refine ⟨10 ^ (-place).toNat * 2 ^ (2 - r.exponent).toNat, by positivity, ?_, ?_⟩
  · rw [unit, Nat.pow_eq, Nat.pow_eq]
    push_cast
    rw [pow_toNat_eq 10 (by norm_num) place]
    ring
  · rw [scale, quarter, Nat.pow_eq, Nat.pow_eq]
    push_cast
    rw [pow_toNat_eq 2 (by norm_num) (r.exponent - 2), neg_sub]
    ring

theorem holds_iff_contains {place : ℤ} {c : ℕ} :
    r.holds place c = true ↔ r.Contains (Decimal.value ⟨c, place⟩) := by
  obtain ⟨w, hw, hunit, hscale⟩ := r.exists_unit_scale place
  have hpoint : ((c * r.unit place : ℕ) : ℚ) = Decimal.value ⟨c, place⟩ * w := by
    rw [Nat.cast_mul, hunit, Decimal.value, mul_assoc]
  have hend (q : ℕ) : ((q * r.scale place : ℕ) : ℚ) = q * r.quarter * w := by
    rw [Nat.cast_mul, hscale, mul_assoc]
  have hle (q : ℕ) : q * r.scale place ≤ c * r.unit place ↔ q * r.quarter ≤ Decimal.value ⟨c, place⟩ := by
    rw [← mul_le_mul_iff_of_pos_right hw, ← hpoint, ← hend, Nat.cast_le]
  have hge (q : ℕ) : c * r.unit place ≤ q * r.scale place ↔ Decimal.value ⟨c, place⟩ ≤ q * r.quarter := by
    rw [← mul_le_mul_iff_of_pos_right hw, ← hpoint, ← hend, Nat.cast_le]
  rw [holds, Contains]
  by_cases heven : r.significand % 2 = 0
  · simp only [if_pos heven, Bool.and_eq_true, decide_eq_true_eq, hle, hge]
  · simp only [if_neg heven, Bool.and_eq_true, decide_eq_true_eq, ← not_le, hle, hge]

/-- What two intervals contain is not above one of them and below the other. -/
theorem Contains.lt_of_odd {x : ℚ} (h : r.Contains x) (h' : r'.Contains x)
    (hodd : r.significand % 2 = 1 ∨ r'.significand % 2 = 1) :
    r'.lowQuarters * r'.quarter < r.highQuarters * r.quarter := by
  rw [Contains] at h h'
  rcases hodd with hodd | hodd
  · rw [if_neg (by omega)] at h
    split at h'
    · exact lt_of_le_of_lt h'.1 h.2
    · exact h'.1.trans h.2
  · rw [if_neg (by omega)] at h'
    split at h
    · exact lt_of_lt_of_le h'.1 h.2
    · exact h'.1.trans h.2

theorem Contains.le {x : ℚ} (h : r.Contains x) (h' : r'.Contains x) :
    r'.lowQuarters * r'.quarter ≤ r.highQuarters * r.quarter := by
  rw [Contains] at h h'
  split at h <;> split at h' <;> linarith

theorem Contains.pos {x : ℚ} (h : r.Contains x) (hpos : 0 < r.significand) : 0 < x := by
  have hlow : 0 < (r.lowQuarters : ℚ) * r.quarter := by
    apply mul_pos _ r.quarter_pos
    rw [Nat.cast_pos, lowQuarters, quarters]
    split <;> omega
  rw [Contains] at h
  split at h <;> linarith

/-! ### The numbers of a format -/

/-- What taking a pattern of the format apart can give: the significand has all its places unless the exponent is the least one, and the neighbour below is nearer exactly where the significand is the least with all places. -/
structure Fits (format : BinaryFormat) (r : RoundingInterval) : Prop where
  pos : 0 < r.significand
  lt : r.significand < 2 * Nat.pow 2 format.fractionBits
  least : format.leastExponent ≤ r.exponent
  normal : format.leastExponent < r.exponent → Nat.pow 2 format.fractionBits ≤ r.significand
  narrow : r.narrowBelow = true ↔
    r.significand = Nat.pow 2 format.fractionBits ∧ format.leastExponent < r.exponent

/-- Whether a number comes before another of the same format. -/
def Precedes (r r' : RoundingInterval) : Prop :=
  r.exponent < r'.exponent ∨ r.exponent = r'.exponent ∧ r.significand < r'.significand

namespace Fits

variable {format : BinaryFormat}

theorem eq_or_precedes (h : Fits format r) (h' : Fits format r') :
    r = r' ∨ r.Precedes r' ∨ r'.Precedes r := by
  simp only [Precedes]
  by_cases hexponent : r.exponent = r'.exponent
  · by_cases hsignificand : r.significand = r'.significand
    · have hnarrow : r.narrowBelow = r'.narrowBelow := by
        rw [Bool.eq_iff_iff, h.narrow, h'.narrow, hexponent, hsignificand]
      left
      cases r
      cases r'
      cases hexponent
      cases hsignificand
      cases hnarrow
      rfl
    · omega
  · omega

/-- In quarters of the smaller last place, the interval of the number before ends no later than that of the number after begins. -/
theorem highQuarters_le (h : Fits format r) (h' : Fits format r') (hlt : r.Precedes r') :
    r.highQuarters ≤ r'.lowQuarters * 2 ^ (r'.exponent - r.exponent).toNat ∧
      (r.highQuarters = r'.lowQuarters * 2 ^ (r'.exponent - r.exponent).toNat →
        r.significand % 2 = 1 ∨ r'.significand % 2 = 1) := by
  have hlt' := h.lt
  have hpos' := h'.pos
  have hnormal' := h'.normal
  have hnarrow' := h'.narrow
  simp only [highQuarters, lowQuarters, quarters]
  rcases hlt with hexponent | ⟨hexponent, hsignificand⟩
  · have hleast : format.leastExponent < r'.exponent := lt_of_le_of_lt h.least hexponent
    have htwo : 2 ≤ 2 ^ (r'.exponent - r.exponent).toNat := by
      apply Nat.le_self_pow
      omega
    -- The significand after has all its places, and at the least such one the interval begins nearer.
    have hlow : 4 * Nat.pow 2 format.fractionBits - 1 ≤
        4 * r'.significand - if r'.narrowBelow then 1 else 2 := by
      have hall := hnormal' hleast
      by_cases hnear : r'.narrowBelow = true
      · rw [if_pos hnear]
        omega
      · have hne : r'.significand ≠ Nat.pow 2 format.fractionBits := by
          intro heq
          exact hnear (hnarrow'.mpr ⟨heq, hleast⟩)
        rw [if_neg hnear]
        omega
    have hdouble := Nat.mul_le_mul hlow htwo
    omega
  · rw [hexponent, sub_self, Int.toNat_zero, pow_zero, mul_one]
    split <;> omega

theorem eq_of_contains (h : Fits format r) (h' : Fits format r') {x : ℚ} (hx : r.Contains x)
    (hx' : r'.Contains x) : r = r' := by
  have hapart {r r' : RoundingInterval} (h : Fits format r) (h' : Fits format r')
      (hx : r.Contains x) (hx' : r'.Contains x) : ¬r.Precedes r' := by
    intro hlt
    obtain ⟨hle, hodd⟩ := highQuarters_le h h' hlt
    have hquarter : r'.quarter = 2 ^ (r'.exponent - r.exponent).toNat * r.quarter := by
      have hexponent : r.exponent ≤ r'.exponent := by
        rcases hlt with hlt | hlt <;> omega
      rw [quarter, quarter, ← zpow_natCast, ← zpow_add₀ (by norm_num)]
      congr 1
      omega
    have hcast : (r'.lowQuarters : ℚ) * r'.quarter =
        ((r'.lowQuarters * 2 ^ (r'.exponent - r.exponent).toNat : ℕ) : ℚ) * r.quarter := by
      rw [hquarter]
      push_cast
      ring
    have hmeet := hx.le hx'
    rw [hcast, mul_le_mul_iff_of_pos_right r.quarter_pos, Nat.cast_le] at hmeet
    have hstrict := hx.lt_of_odd hx' (hodd (le_antisymm hle hmeet))
    rw [hcast, mul_lt_mul_iff_of_pos_right r.quarter_pos, Nat.cast_lt] at hstrict
    omega
  rcases h.eq_or_precedes h' with heq | hlt | hlt
  · exact heq
  · exact absurd hlt (hapart h h' hx hx')
  · exact absurd hlt (hapart h' h hx' hx)

end Fits

end RoundingInterval

end Univariate
