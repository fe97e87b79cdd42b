import Mathlib.Algebra.Field.Basic
import Mathlib.Tactic.FieldSimp
import Mathlib.Tactic.Ring
import Univariate.Expr.Variables
import Univariate.Proofs.Dual.Values

/-!
# Powers of dual numbers

A power follows one of two rules, and a test on the derivative of the exponent decides which. A tree without the variable has the derivative zero, whatever powers it holds itself, so as an exponent it takes the power rule. For a natural exponent this is repeated multiplication, at the base zero as well; for any other it is what the general rule gives without a derivative of the exponent, as long as the base can be divided out.
-/

namespace Univariate

/-! ### The two rules -/

namespace Dual

variable {α : Type} [Zero α] [One α] [Add α] [Sub α] [Mul α] [Div α] [BEq α] [Elementary α] [Logarithm α]

def constantPow (u : Dual α) (w : α) : Dual α :=
  ⟨Elementary.pow u.val w, w * Elementary.pow u.val (w - 1) * u.eps⟩

def generalPow (u w : Dual α) : Dual α :=
  ⟨Elementary.pow u.val w.val,
    Elementary.pow u.val w.val * (w.eps * Logarithm.ln u.val + w.val * u.eps / u.val)⟩

theorem pow_eq (u w : Dual α) :
    u.pow w = if w.eps == 0 then u.constantPow w.val else u.generalPow w := rfl

/-- The product of `n` factors `u`. -/
def product (u : Dual α) : (n : Nat) → Dual α
  | 0 => constant 1
  | 1 => u
  | n + 2 => product u (n + 1) * u

end Dual

/-! ### Trees without the variable -/

variable {K : Type} [Field K] [BEq K] [Elementary K] [Logarithm K]

namespace Dual

theorem pow_constant (y w : K) : (constant y).pow (constant w) = constant (Elementary.pow y w) := by
  rw [pow_eq]
  split
  case isTrue => simp [constantPow, constant]
  case isFalse => simp [generalPow, constant]

end Dual

namespace Expr

/-- What is computed from constants is a constant. -/
theorem constant_congruence : ScalarCongruence fun (y : K) (g : Dual K) => g = Dual.constant y where
  add := by
    rintro y z _ _ rfl rfl
    exact congrArg (Dual.mk (y + z)) (add_zero 0)
  mul := by
    rintro y z _ _ rfl rfl
    refine congrArg (Dual.mk (y * z)) ?_
    simp [Dual.constant]
  sin := by
    rintro y _ rfl
    exact congrArg (Dual.mk (Elementary.sin y)) (zero_mul _)
  cos := by
    rintro y _ rfl
    refine congrArg (Dual.mk (Elementary.cos y)) ?_
    simp [Dual.constant]
  pow := by
    rintro y w _ _ rfl rfl
    exact Dual.pow_constant y w

theorem evaluateDual_of_containsVar {v : Var} {x y : K} {e : Expr K} (h : e.containsVar v = false)
    (hy : e.evaluate v x = .ok y) : e.evaluateDual v x = .ok (Dual.constant y) := by
  -- The variable itself is not related to a constant, but the tree does not refer to it.
  have hvarying (hv : e.containsVar v = true) : Dual.varying x = Dual.constant x := by
    rw [h] at hv
    cases hv
  have hagree : Error.Agree (fun y g => g = Dual.constant y) (e.evaluate v x) (e.evaluateDual v x) :=
    constant_congruence.agree_evaluateAs_of_containsVar (fun _ => rfl) v hvarying
  obtain ⟨_, hg, rfl⟩ := hagree.exists_of_eq_ok hy
  exact hg

theorem evaluateDual_pow_eq_ok_iff {v : Var} {x : K} {base exponent : Expr K} {g : Dual K} :
    (base.pow exponent).evaluateDual v x = .ok g ↔
      ∃ u w, base.evaluateDual v x = .ok u ∧ exponent.evaluateDual v x = .ok w ∧ u.pow w = g := by
  constructor
  · intro h
    rw [evaluateDual, evaluateDualAs, pow, evaluateAs] at h
    obtain ⟨u, hu, h⟩ := Error.bind_eq_ok_iff.mp h
    obtain ⟨w, hw, h⟩ := Error.bind_eq_ok_iff.mp h
    exact ⟨u, w, hu, hw, Except.ok.inj h⟩
  · rintro ⟨u, w, hu, hw, rfl⟩
    exact evaluateAs_pow hu hw

end Expr

/-! ### Constant exponents -/

omit [BEq K] [Logarithm K] in
/-- The exponent before zero counts for nothing, because there is a zero in front of the power. -/
theorem natCast_mul_pow_sub_one (hpow : ∀ (b : K) (n : ℕ), Elementary.pow b (n : K) = b ^ n) (b : K)
    (n : ℕ) : n * Elementary.pow b ((n : K) - 1) = n * b ^ (n - 1) := by
  cases n with
  | zero => rw [Nat.cast_zero, zero_mul, zero_mul]
  | succ n =>
    have hexponent : ((n + 1 : ℕ) : K) - 1 = n := by
      rw [Nat.cast_succ, add_sub_cancel_right]
    rw [hexponent, hpow, Nat.add_sub_cancel]

theorem zpow_num_natCast (b : ℚ) (n : ℕ) : b ^ (n : ℚ).num = b ^ n := by
  rw [Rat.num_natCast, zpow_natCast]

namespace Dual

omit [BEq K] [Elementary K] [Logarithm K] in
theorem product_eq (u : Dual K) (n : ℕ) : u.product n = ⟨u.val ^ n, n * u.val ^ (n - 1) * u.eps⟩ := by
  induction n using product.induct with
  | case1 => simp [product, constant]
  | case2 => simp [product]
  | case3 n ih =>
    rw [product, ih]
    refine congrArg₂ Dual.mk (pow_succ u.val (n + 1)).symm ?_
    simp only [Nat.add_sub_cancel]
    push_cast
    ring

variable [ReflBEq K]

theorem pow_eq_constantPow (u : Dual K) {w : Dual K} (hw : w.eps = 0) : u.pow w = u.constantPow w.val := by
  rw [pow_eq, hw, if_pos BEq.rfl]

/-- A natural power is a product, also of a dual number without a value. -/
theorem pow_constant_natCast (hpow : ∀ (b : K) (n : ℕ), Elementary.pow b (n : K) = b ^ n) (u : Dual K)
    (n : ℕ) : u.pow (constant n) = u.product n := by
  rw [pow_eq_constantPow u rfl, product_eq, constantPow]
  change Dual.mk (Elementary.pow u.val (n : K)) (n * Elementary.pow u.val (n - 1) * u.eps) = _
  rw [hpow, natCast_mul_pow_sub_one hpow]

omit [BEq K] [ReflBEq K] in
theorem generalPow_constant {u : Dual K} {w : K} (hu : u.val ≠ 0)
    (hw : Elementary.pow u.val w = Elementary.pow u.val (w - 1) * u.val) :
    u.generalPow (constant w) = u.constantPow w := by
  refine congrArg (Dual.mk (Elementary.pow u.val w)) ?_
  change Elementary.pow u.val w * (0 * Logarithm.ln u.val + w * u.eps / u.val) =
    w * Elementary.pow u.val (w - 1) * u.eps
  rw [hw]
  field_simp
  ring

end Dual

/-- A tree with a value that does not refer to the variable has the derivative zero, so a power with such an exponent follows the power rule. At a natural exponent that is repeated multiplication for every dual number, and where the base can be divided out of the power it is the general rule with an exponent that does not vary, whatever the logarithm is. -/
theorem Dual.constant_exponents_follow_power_rule [ReflBEq K]
    (hpow : ∀ (b : K) (n : ℕ), Elementary.pow b (n : K) = b ^ n) :
    (∀ (v : Var) (x y : K) (e : Expr K), e.containsVar v = false → e.evaluate v x = .ok y →
        e.evaluateDual v x = .ok ⟨y, 0⟩) ∧
      (∀ u w : Dual K, u.pow w = if w.eps == 0 then u.constantPow w.val else u.generalPow w) ∧
      (∀ (v : Var) (x : K) (base exponent : Expr K) (g : Dual K), exponent.containsVar v = false →
        (base.pow exponent).evaluateDual v x = .ok g →
        ∃ u w, base.evaluateDual v x = .ok u ∧ exponent.evaluateDual v x = .ok w ∧
          (w.eps == 0) = true ∧ g = u.constantPow w.val) ∧
      (∀ (u : Dual K) (n : ℕ), u.pow (constant n) = u.product n) ∧
      ∀ (u : Dual K) (w : K), u.val ≠ 0 →
        Elementary.pow u.val w = Elementary.pow u.val (w - 1) * u.val →
        (u.generalPow ⟨w, 0⟩).eps = (u.constantPow w).eps := by
  refine ⟨fun v x y e => Expr.evaluateDual_of_containsVar, pow_eq, ?_, pow_constant_natCast hpow, ?_⟩
  · intro v x base exponent g hexponent h
    obtain ⟨u, w, hu, hw, rfl⟩ := Expr.evaluateDual_pow_eq_ok_iff.mp h
    have hvalue := Expr.evaluateDual_of_containsVar hexponent (Expr.evaluate_of_evaluateDual hw)
    have heps : w.eps = 0 := congrArg Dual.eps (Except.ok.inj (hw.symm.trans hvalue))
    exact ⟨u, w, hu, hw, by rw [heps, BEq.rfl], pow_eq_constantPow u heps⟩
  · intro u w hu hw
    exact congrArg Dual.eps (generalPow_constant hu hw)

/-- The powers `(x + 1) ^ (2 ^ (1 + 1))` and `x ^ 0` over the rational numbers, the second at a base without a value. -/
theorem Dual.constant_exponents_follow_power_rule_nested :
    let _ : Elementary ℚ := ⟨fun a => 2 * a, fun a => a + 3, fun b e => b ^ e.num⟩
    let _ : Logarithm ℚ := ⟨id⟩
    let x : Var := ⟨0, "x"⟩
    let base : Expr ℚ := .add (.var x) (.num 1)
    let exponent : Expr ℚ := .pow (.num 2) (.add (.num 1) (.num 1))
    (∀ (b : ℚ) (n : ℕ), Elementary.pow b (n : ℚ) = b ^ n) ∧
      (∀ a, exponent.evaluateDual x a = .ok ⟨4, 0⟩) ∧
      (base.pow exponent).evaluateDual x 1 = .ok ((⟨2, 1⟩ : Dual ℚ).constantPow 4) ∧
      (⟨2, 1⟩ : Dual ℚ).pow ⟨4, 0⟩ = (⟨2, 1⟩ : Dual ℚ).product 4 ∧
      (⟨0, 1⟩ : Dual ℚ).pow ⟨0, 0⟩ = constant 1 ∧
      ((⟨2, 1⟩ : Dual ℚ).generalPow ⟨-3, 0⟩).eps = ((⟨2, 1⟩ : Dual ℚ).constantPow (-3)).eps := by
  intro _ _ x base exponent
  have hpow : ∀ (b : ℚ) (n : ℕ), Elementary.pow b (n : ℚ) = b ^ n := zpow_num_natCast
  obtain ⟨hzero, _, hbranch, hnatural, hgeneral⟩ := constant_exponents_follow_power_rule hpow
  have hexponent (a : ℚ) : exponent.evaluateDual x a = .ok ⟨4, 0⟩ := by
    refine hzero x a 4 exponent rfl ?_
    change Except.ok ((2 : ℚ) ^ (1 + 1 : ℚ).num) = .ok 4
    norm_num
  have hbase : base.evaluateDual x 1 = .ok ⟨2, 1⟩ := by
    change Except.ok (Dual.mk (1 + 1 : ℚ) (1 + 0)) = .ok ⟨2, 1⟩
    norm_num
  refine ⟨hpow, hexponent, ?_, hnatural ⟨2, 1⟩ 4, hnatural ⟨0, 1⟩ 0, hgeneral ⟨2, 1⟩ (-3) two_ne_zero ?_⟩
  · obtain ⟨g, hg⟩ : ∃ g, (base.pow exponent).evaluateDual x 1 = .ok g :=
      ⟨_, Expr.evaluateAs_pow hbase (hexponent 1)⟩
    obtain ⟨u, w, hu, hw, -, rfl⟩ := hbranch x 1 base exponent g rfl hg
    obtain rfl := Except.ok.inj (hbase.symm.trans hu)
    obtain rfl := Except.ok.inj ((hexponent 1).symm.trans hw)
    exact hg
  · change (2 : ℚ) ^ (-3 : ℚ).num = 2 ^ (-3 - 1 : ℚ).num * 2
    norm_num

end Univariate
