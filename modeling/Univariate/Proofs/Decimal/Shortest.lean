import Univariate.Decimal.Positional
import Univariate.Proofs.Decimal.Rounding
import Univariate.Scalar.Numeral

/-!
# The shortest decimal rounds to the number

The search ends with a point of some grid that is inside the rounding interval: before the last grid because it takes no other point, and on the last one because that grid holds the number itself. Written with all its places the point is a numeral of the same value, whichever way its exponent points.
-/

namespace Univariate

namespace RoundingInterval

variable {r : RoundingInterval}

theorem contains_self (hpos : 0 < r.significand) : r.Contains (r.quarters * r.quarter) := by
  have hlow : (r.lowQuarters : ℚ) * r.quarter < r.quarters * r.quarter := by
    rw [mul_lt_mul_iff_of_pos_right r.quarter_pos, Nat.cast_lt, lowQuarters, quarters]
    split <;> omega
  have hhigh : (r.quarters : ℚ) * r.quarter < r.highQuarters * r.quarter := by
    rw [mul_lt_mul_iff_of_pos_right r.quarter_pos, Nat.cast_lt, highQuarters]
    omega
  rw [Contains]
  split
  · exact ⟨hlow.le, hhigh.le⟩
  · exact ⟨hlow, hhigh⟩

theorem value_natural? {n : ℕ} (h : Unpacked.natural? r = some n) :
    Decimal.value ⟨n, 0⟩ = r.quarters * r.quarter := by
  have hquarter : 4 * r.quarter = 2 ^ r.exponent := by
    rw [quarter, zpow_sub₀ (by norm_num)]
    ring
  have hvalue : (r.quarters : ℚ) * r.quarter = r.significand * 2 ^ r.exponent := by
    rw [← hquarter, quarters]
    push_cast
    ring
  rw [hvalue, Decimal.value, zpow_zero, mul_one]
  rw [Unpacked.natural?] at h
  split at h
  · obtain rfl := Option.some.inj h
    rw [Nat.pow_eq]
    push_cast
    rw [← zpow_natCast, Int.toNat_of_nonneg ‹_›]
  · dsimp only at h
    split at h
    · obtain rfl := Option.some.inj h
      have hneg : (2 : ℚ) ^ r.exponent = (2 ^ (-r.exponent).toNat)⁻¹ := by
        rw [← zpow_natCast, ← zpow_neg]
        congr 1
        omega
      rw [hneg, ← div_eq_mul_inv, Nat.cast_div (Nat.dvd_of_mod_eq_zero ‹_›) (by simp)]
      simp
    · cases h

theorem unit_dvd (r : RoundingInterval) : r.unit r.exactPlace ∣ r.quarters * r.scale r.exactPlace := by
  have hplace : r.exactPlace.toNat = 0 := by
    rw [exactPlace]
    omega
  have hpow : 2 ^ (2 - r.exponent).toNat ∣ 2 ^ (2 + (-r.exactPlace).toNat) := by
    apply Nat.pow_dvd_pow
    rw [exactPlace]
    omega
  rw [unit, scale, quarters, hplace]
  simp only [Nat.pow_eq, Nat.pow_zero, Nat.one_mul]
  apply hpow.trans
  rw [Nat.pow_add, Nat.mul_assoc]
  apply Nat.mul_dvd_mul_left 4
  apply Dvd.dvd.mul_left
  apply Dvd.dvd.mul_right
  exact pow_dvd_pow_of_dvd (by decide) _

theorem value_floorPoint (r : RoundingInterval) :
    Decimal.value ⟨r.floorPoint r.exactPlace, r.exactPlace⟩ = r.quarters * r.quarter := by
  obtain ⟨w, hw, hunit, hscale⟩ := r.exists_unit_scale r.exactPlace
  have hten : (0 : ℚ) < 10 ^ r.exactPlace := by positivity
  have hcast : ((r.floorPoint r.exactPlace : ℕ) : ℚ) * r.unit r.exactPlace = r.quarters * r.scale r.exactPlace := by
    rw [floorPoint, ← Nat.cast_mul, Nat.div_mul_cancel r.unit_dvd, Nat.cast_mul]
  rw [hunit, hscale] at hcast
  rw [Decimal.value]
  apply mul_right_cancel₀ hw.ne'
  linarith

theorem holds_of_gridPoint? {place : ℤ} {c : ℕ} (h : r.gridPoint? place = some c) : r.holds place c = true := by
  rw [gridPoint?] at h
  cases hbelow : r.holds place (r.floorPoint place) <;>
    cases habove : r.holds place (r.floorPoint place + 1) <;>
      simp only [hbelow, habove] at h
  · cases h
  · obtain rfl := Option.some.inj h
    exact habove
  · obtain rfl := Option.some.inj h
    exact hbelow
  · split at h <;> obtain rfl := Option.some.inj h
    · exact hbelow
    · exact habove

theorem contains_search (hpos : 0 < r.significand) (steps : ℕ) (place : ℤ)
    (hsteps : place - steps = r.exactPlace) : r.Contains (r.search place steps).value := by
  induction steps generalizing place with
  | zero =>
    obtain rfl : place = r.exactPlace := by omega
    rw [search, value_floorPoint]
    exact contains_self hpos
  | succ steps ih =>
    rw [search]
    cases hpoint : r.gridPoint? place with
    | some c => exact holds_iff_contains.mp (holds_of_gridPoint? hpoint)
    | none =>
      apply ih
      omega

theorem contains_shortest (hpos : 0 < r.significand) : r.Contains r.shortest.value := by
  have hplaces : r.exactPlace ≤ r.coarsestPlace := by
    have hcoarsest : 0 ≤ r.coarsestPlace := by
      rw [coarsestPlace]
      split <;> omega
    rw [exactPlace]
    omega
  apply contains_search hpos
  omega

end RoundingInterval

/-! ### All places written out -/

namespace Decimal

theorem isDigit_of_mem_digitsOf {n : ℕ} {c : Char} (h : c ∈ digitsOf n) : c.isDigit = true :=
  Nat.isDigit_of_mem_toDigits (by decide) (by decide) h

theorem isDigit_of_mem_replicate {k : ℕ} {c : Char} (h : c ∈ List.replicate k '0') : c.isDigit = true := by
  rw [List.eq_of_mem_replicate h]
  decide

theorem ofDigitChars_digitsOf (n : ℕ) : Nat.ofDigitChars 10 (digitsOf n) 0 = n :=
  Nat.ofDigitChars_ten_toDigits

theorem exists_numeral_of_nonneg (negative : Bool) {d : Decimal} (h : 0 ≤ d.exponent) :
    ∃ d', Numeral (Unpacked.sign negative ++ d.positional) negative d' ∧ d'.value = d.value := by
  rw [positional, if_pos h]
  refine ⟨_, .whole negative _ ?_ ?_, ?_⟩
  · exact List.append_ne_nil_of_left_ne_nil Nat.toDigits_ne_nil _
  · exact List.forall_mem_append.mpr
      ⟨fun _ => isDigit_of_mem_digitsOf, fun _ => isDigit_of_mem_replicate⟩
  · have hexponent : (10 : ℚ) ^ d.exponent = 10 ^ d.exponent.toNat := by
      rw [← zpow_natCast, Int.toNat_of_nonneg h]
    rw [Nat.ofDigitChars_append, ofDigitChars_digitsOf, Nat.ofDigitChars_replicate_zero, value, value, hexponent]
    push_cast
    ring

theorem exists_numeral_of_neg (negative : Bool) {d : Decimal} (h : d.exponent < 0) :
    ∃ d', Numeral (Unpacked.sign negative ++ d.positional) negative d' ∧ d'.value = d.value := by
  rw [positional, if_neg (by omega), pointed]
  generalize hplaces : (-d.exponent).toNat = places
  generalize hpadded : List.replicate (places + 1 - (digitsOf d.digits).length) '0' ++ digitsOf d.digits = padded
  have hlength : places + 1 ≤ padded.length := by
    rw [← hpadded, List.length_append, List.length_replicate]
    omega
  have hdigits : Nat.ofDigitChars 10 padded 0 = d.digits := by
    rw [← hpadded, Nat.ofDigitChars_append, Nat.ofDigitChars_replicate_zero, Nat.mul_zero, ofDigitChars_digitsOf]
  refine ⟨_, .pointed negative (padded.take (padded.length - places)) (padded.drop (padded.length - places)) ?_ ?_, ?_⟩
  · apply List.ne_nil_of_length_pos
    rw [List.length_take]
    omega
  · rw [List.take_append_drop, ← hpadded]
    exact List.forall_mem_append.mpr
      ⟨fun _ => isDigit_of_mem_replicate, fun _ => isDigit_of_mem_digitsOf⟩
  · have hexponent : -((padded.drop (padded.length - places)).length : ℤ) = d.exponent := by
      rw [List.length_drop]
      omega
    rw [List.take_append_drop, hdigits, hexponent]

theorem exists_numeral (negative : Bool) (d : Decimal) :
    ∃ d', Numeral (Unpacked.sign negative ++ d.positional) negative d' ∧ d'.value = d.value := by
  rcases Int.lt_or_le d.exponent 0 with h | h
  · exact exists_numeral_of_neg negative h
  · exact exists_numeral_of_nonneg negative h

end Decimal

end Univariate
