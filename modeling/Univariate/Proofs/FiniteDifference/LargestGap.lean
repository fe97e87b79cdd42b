import Mathlib.Order.Bounds.Basic
import Univariate.Proofs.FiniteDifference
import Univariate.Proofs.Scalar.Magnitude

/-!
# The largest gap

The check carries the largest gap that it has met so far, starting from zero. A function has a value at all points or at none, so the check fails at the first point or not at all, and the slope is never made of a missing value. What is carried stays a number, because nothing but distances of finite scalars gets in, and it is the greatest element of a set that does not know the order of the points.
-/

namespace Univariate

namespace Derivative

variable {α : Type} [Add α] [Sub α] [Mul α] [Elementary α] [Measured α]

/-! ### Gaps -/

/-- The gap between a slope and the derivative at `x`, where both are finite. -/
def gap? (d : Derivative α) (slope x : α) : Option α :=
  if Measured.isFinite slope && Measured.isFinite (d.evaluate x) then
    some (Measured.abs (slope - d.evaluate x))
  else none

theorem gap?_eq_some_iff {d : Derivative α} {slope x gap : α} : d.gap? slope x = some gap ↔
    Measured.isFinite slope = true ∧ Measured.isFinite (d.evaluate x) = true ∧
      Measured.abs (slope - d.evaluate x) = gap := by
  rw [gap?, Option.ite_none_right_eq_some, Bool.and_eq_true, and_assoc, Option.some.injEq]

variable [One α] [Div α]

def gaps (d : Derivative α) (f : Abstraction α) (h : α) (points : List α) : Set α :=
  {gap | ∃ x ∈ points, d.gap? (centralDifference f.evaluateOrNan x h) x = some gap}

variable {d : Derivative α} {f : Abstraction α} {h : α}

theorem mem_gaps_append {xs ys : List α} {gap : α} :
    gap ∈ d.gaps f h (xs ++ ys) ↔ gap ∈ d.gaps f h xs ∨ gap ∈ d.gaps f h ys := by
  simp only [gaps, List.mem_append, Set.mem_ofPred_eq, or_and_right, exists_or]

theorem mem_gaps_singleton {x gap : α} :
    gap ∈ d.gaps f h [x] ↔ d.gap? (centralDifference f.evaluateOrNan x h) x = some gap := by
  simp [gaps]

theorem gaps_congr {xs ys : List α} (hmem : ∀ x, x ∈ xs ↔ x ∈ ys) : d.gaps f h xs = d.gaps f h ys := by
  simp only [gaps, hmem]

theorem widenGap_eq_elim [Max α] (d : Derivative α) (f : Abstraction α) (h worst x : α) :
    d.widenGap f h worst x =
      (d.gap? (centralDifference f.evaluateOrNan x h) x).elim worst (max worst) := by
  simp only [widenGap, gap?]
  split
  · rfl
  · rfl

/-! ### The largest gap -/

variable [Zero α]

/-- Whether `worst` is a number and the greatest of zero and the gaps at the points. -/
def IsLargestGap (IsNumber : α → Prop) [LinearOrder {a // IsNumber a}] (d : Derivative α)
    (f : Abstraction α) (h : α) (points : List α) (worst : α) : Prop :=
  ∃ hworst : IsNumber worst,
    IsGreatest {gap : {a // IsNumber a} | gap.val = 0 ∨ gap.val ∈ d.gaps f h points} ⟨worst, hworst⟩

namespace IsLargestGap

variable {IsNumber : α → Prop} [LinearOrder {a // IsNumber a}] {xs ys : List α} {a b worst : α}

theorem nil (hzero : IsNumber 0) : IsLargestGap IsNumber d f h [] 0 := by
  refine ⟨hzero, .inl rfl, ?_⟩
  rintro gap (hgap | ⟨x, hx, _⟩)
  · exact (Subtype.ext hgap).le
  · cases hx

theorem unique (ha : IsLargestGap IsNumber d f h xs a) (hb : IsLargestGap IsNumber d f h xs b) :
    a = b := by
  obtain ⟨_, hgreatest⟩ := ha
  obtain ⟨_, hgreatest'⟩ := hb
  exact congrArg Subtype.val (hgreatest.unique hgreatest')

theorem congr (hworst : IsLargestGap IsNumber d f h xs worst) (hmem : ∀ x, x ∈ xs ↔ x ∈ ys) :
    IsLargestGap IsNumber d f h ys worst := by
  rw [IsLargestGap, ← gaps_congr hmem]
  exact hworst

variable [Max α] (hmax : ∀ a b : {a // IsNumber a}, max a.val b.val = (max a b).val)

include hmax in
theorem append (ha : IsLargestGap IsNumber d f h xs a) (hb : IsLargestGap IsNumber d f h ys b) :
    IsLargestGap IsNumber d f h (xs ++ ys) (max a b) := by
  obtain ⟨hnumber, hgreatest⟩ := ha
  obtain ⟨hnumber', hgreatest'⟩ := hb
  have hset : {gap : {a // IsNumber a} | gap.val = 0 ∨ gap.val ∈ d.gaps f h (xs ++ ys)} =
      {gap | gap.val = 0 ∨ gap.val ∈ d.gaps f h xs} ∪ {gap | gap.val = 0 ∨ gap.val ∈ d.gaps f h ys} := by
    ext gap
    simp only [mem_gaps_append, Set.mem_union, Set.mem_ofPred_eq]
    tauto
  have hval : max a b = (max ⟨a, hnumber⟩ ⟨b, hnumber'⟩ : {a // IsNumber a}).val :=
    hmax ⟨a, hnumber⟩ ⟨b, hnumber'⟩
  rw [hval]
  refine ⟨Subtype.property _, ?_⟩
  rw [hset]
  exact hgreatest.union hgreatest'

variable (hdistance : ∀ a b : α, Measured.isFinite a = true → Measured.isFinite b = true →
  IsNumber (Measured.abs (a - b)))

include hmax hdistance in
theorem widenGap (hworst : IsLargestGap IsNumber d f h xs worst) (x : α) :
    IsLargestGap IsNumber d f h (xs ++ [x]) (d.widenGap f h worst x) := by
  obtain ⟨hnumber, hgreatest⟩ := hworst
  rw [widenGap_eq_elim]
  cases hgap : d.gap? (centralDifference f.evaluateOrNan x h) x with
  | none =>
    have hset : d.gaps f h (xs ++ [x]) = d.gaps f h xs := by
      ext gap
      rw [mem_gaps_append, mem_gaps_singleton, hgap]
      simp
    refine ⟨hnumber, ?_⟩
    rw [hset]
    exact hgreatest
  | some gap =>
    obtain ⟨hslope, hvalue, rfl⟩ := gap?_eq_some_iff.mp hgap
    let number : {a // IsNumber a} := ⟨_, hdistance _ _ hslope hvalue⟩
    have hset : {gap : {a // IsNumber a} | gap.val = 0 ∨ gap.val ∈ d.gaps f h (xs ++ [x])} =
        {gap | gap.val = 0 ∨ gap.val ∈ d.gaps f h xs} ∪ {number} := by
      ext gap
      simp only [mem_gaps_append, mem_gaps_singleton, hgap, Option.some.injEq, Set.mem_union,
        Set.mem_singleton_iff, Set.mem_ofPred_eq, Subtype.ext_iff, number, or_assoc]
      tauto
    have hval : max worst number.val = (max ⟨worst, hnumber⟩ number).val :=
      hmax ⟨worst, hnumber⟩ number
    rw [Option.elim_some, hval]
    refine ⟨Subtype.property _, ?_⟩
    rw [hset]
    exact hgreatest.union isGreatest_singleton

include hmax hdistance in
theorem foldl_widenGap (hworst : IsLargestGap IsNumber d f h xs worst) (points : List α) :
    IsLargestGap IsNumber d f h (xs ++ points) (points.foldl (d.widenGap f h) worst) := by
  induction points generalizing xs worst with
  | nil =>
    rw [List.append_nil]
    exact hworst
  | cons x points ih =>
    rw [List.append_cons]
    exact ih (hworst.widenGap hmax hdistance x)

end IsLargestGap

end Derivative

/-! ### Failure -/

/-- A function has a value at every point, or the same error at every point. -/
theorem Abstraction.evaluate_cases {α : Type} [Add α] [Mul α] [Elementary α] (f : Abstraction α) :
    (∃ value : α → α, ∀ x, f.evaluate x = .ok (value x)) ∨ ∃ error, ∀ x, f.evaluate x = .error error := by
  cases hdefect : f.body.defect? f.param with
  | none =>
    obtain ⟨hbound, hfit⟩ := Expr.defect?_eq_none_iff.mp hdefect
    exact .inl (Classical.skolem.mp fun x => Expr.exists_evaluateAs id x hbound hfit)
  | some error => exact .inr ⟨error, fun x => Expr.evaluateAs_of_defect id x hdefect⟩

namespace Derivative

variable {α : Type} [Zero α] [One α] [Add α] [Sub α] [Mul α] [Div α] [Max α] [Elementary α] [Measured α]

/-- The check with a slope that fails where the function has no value. -/
def strictFiniteDifferenceError (d : Derivative α) (f : Abstraction α) (points : List α) (h : α) :
    Except Error α :=
  points.foldlM (fun worst x => do
    let _ ← f.evaluate x
    let right ← f.evaluate (x + h)
    let left ← f.evaluate (x - h)
    return (d.gap? ((right - left) / ((1 + 1) * h)) x).elim worst (max worst)) 0

/-- No slope is made of a missing value. -/
theorem maxFiniteDifferenceError_eq_strict (d : Derivative α) (f : Abstraction α) (points : List α)
    (h : α) : d.maxFiniteDifferenceError f points h = d.strictFiniteDifferenceError f points h := by
  refine congrArg (fun step => List.foldlM step 0 points) (funext₂ fun worst x => ?_)
  rcases f.evaluate_cases with ⟨value, hvalue⟩ | ⟨error, herror⟩
  · have hnumber (a : α) : f.evaluateOrNan a = value a := by
      rw [Abstraction.evaluateOrNan, hvalue]
    rw [widenGap_eq_elim, centralDifference, hnumber, hnumber, hvalue, hvalue, hvalue]
    rfl
  · rw [herror x]
    rfl

variable {d : Derivative α} {f : Abstraction α} {h : α}

theorem maxFiniteDifferenceError_of_error {error : Error} (hf : ∀ x, f.evaluate x = .error error)
    (points : List α) :
    d.maxFiniteDifferenceError f points h = if points.isEmpty then .ok 0 else .error error := by
  cases points with
  | nil => rfl
  | cons x xs =>
    rw [maxFiniteDifferenceError, List.foldlM_cons, hf]
    rfl

/-- The check fails with the error of the function, if it is asked about any point. -/
theorem maxFiniteDifferenceError_eq_error_iff {points : List α} {error : Error} (x : α) :
    d.maxFiniteDifferenceError f points h = .error error ↔ points ≠ [] ∧ f.evaluate x = .error error := by
  rcases f.evaluate_cases with ⟨value, hvalue⟩ | ⟨error', herror⟩
  · rw [maxFiniteDifferenceError_eq fun x => ⟨_, hvalue x⟩, hvalue]
    simp
  · rw [maxFiniteDifferenceError_of_error herror, herror]
    cases points with
    | nil => simp
    | cons x' xs => simp

section Greatest

variable {IsNumber : α → Prop} [LinearOrder {a // IsNumber a}]
  (hmax : ∀ a b : {a // IsNumber a}, max a.val b.val = (max a b).val) (hzero : IsNumber 0)
  (hdistance : ∀ a b : α, Measured.isFinite a = true → Measured.isFinite b = true →
    IsNumber (Measured.abs (a - b)))

include hmax hzero hdistance in
theorem isLargestGap_foldl (d : Derivative α) (f : Abstraction α) (h : α) (points : List α) :
    IsLargestGap IsNumber d f h points (points.foldl (d.widenGap f h) 0) :=
  (IsLargestGap.nil hzero).foldl_widenGap hmax hdistance points

include hmax hzero hdistance in
theorem isLargestGap_of_maxFiniteDifferenceError {points : List α} {worst : α}
    (hcheck : d.maxFiniteDifferenceError f points h = .ok worst) :
    IsLargestGap IsNumber d f h points worst := by
  rcases f.evaluate_cases with ⟨value, hvalue⟩ | ⟨error, herror⟩
  · rw [maxFiniteDifferenceError_eq fun x => ⟨_, hvalue x⟩] at hcheck
    obtain rfl := Except.ok.inj hcheck
    exact isLargestGap_foldl hmax hzero hdistance d f h points
  · rw [maxFiniteDifferenceError_of_error herror] at hcheck
    cases points with
    | nil =>
      obtain rfl := Except.ok.inj hcheck
      exact IsLargestGap.nil hzero
    | cons x xs => cases hcheck

include hmax hzero hdistance in
theorem maxFiniteDifferenceError_congr {xs ys : List α} (hmem : ∀ x, x ∈ xs ↔ x ∈ ys) :
    d.maxFiniteDifferenceError f xs h = d.maxFiniteDifferenceError f ys h := by
  have hempty : xs.isEmpty = ys.isEmpty := by
    rw [Bool.eq_iff_iff, List.isEmpty_iff, List.isEmpty_iff, List.eq_nil_iff_forall_not_mem,
      List.eq_nil_iff_forall_not_mem]
    simp only [hmem]
  rcases f.evaluate_cases with ⟨value, hvalue⟩ | ⟨error, herror⟩
  · have hgreatest := isLargestGap_foldl hmax hzero hdistance d f h
    rw [maxFiniteDifferenceError_eq fun x => ⟨_, hvalue x⟩,
      maxFiniteDifferenceError_eq fun x => ⟨_, hvalue x⟩]
    exact congrArg Except.ok (((hgreatest xs).congr hmem).unique (hgreatest ys))
  · rw [maxFiniteDifferenceError_of_error herror, maxFiniteDifferenceError_of_error herror, hempty]

include hmax hzero hdistance in
theorem maxFiniteDifferenceError_append (d : Derivative α) (f : Abstraction α) (h : α) (xs ys : List α) :
    d.maxFiniteDifferenceError f (xs ++ ys) h = do
      let a ← d.maxFiniteDifferenceError f xs h
      let b ← d.maxFiniteDifferenceError f ys h
      return max a b := by
  have hgreatest := isLargestGap_foldl hmax hzero hdistance d f h
  have happend := (hgreatest (xs ++ ys)).unique ((hgreatest xs).append hmax (hgreatest ys))
  rcases f.evaluate_cases with ⟨value, hvalue⟩ | ⟨error, herror⟩
  · simp only [maxFiniteDifferenceError_eq fun x => ⟨_, hvalue x⟩]
    exact congrArg Except.ok happend
  · simp only [maxFiniteDifferenceError_of_error herror]
    cases xs with
    | nil =>
      cases ys with
      | nil => exact congrArg Except.ok happend
      | cons y ys => rfl
    | cons x xs => rfl

end Greatest

/-- Where the maximum is that of a total order on numbers, and distances of finite scalars are numbers, the check is a maximum over the set of its points. It fails if and only if it is asked about a point of a function without values, with the error that the function has everywhere. Otherwise it returns the greatest of zero and the gaps at the points with a finite slope and a finite derivative. -/
theorem maxFiniteDifferenceError_isGreatest {α : Type} [Zero α] [One α] [Add α] [Sub α] [Mul α] [Div α]
    [Max α] [Elementary α] [Measured α] {IsNumber : α → Prop} [LinearOrder {a // IsNumber a}]
    (hmax : ∀ a b : {a // IsNumber a}, max a.val b.val = (max a b).val) (hzero : IsNumber 0)
    (hdistance : ∀ a b : α, Measured.isFinite a = true → Measured.isFinite b = true →
      IsNumber (Measured.abs (a - b)))
    (d : Derivative α) (f : Abstraction α) (h : α) :
    (∀ points, (∃ error, d.maxFiniteDifferenceError f points h = .error error) ↔
        points ≠ [] ∧ ¬ (f.body.boundBy f.param = true ∧ f.body.callsFit = true)) ∧
      (∀ points error x, d.maxFiniteDifferenceError f points h = .error error ↔
        points ≠ [] ∧ f.evaluate x = .error error) ∧
      (∀ points worst, d.maxFiniteDifferenceError f points h = .ok worst →
        ∃ hworst : IsNumber worst, IsGreatest {gap : {a // IsNumber a} | gap.val = 0 ∨ ∃ x ∈ points,
          d.gap? (centralDifference f.evaluateOrNan x h) x = some gap.val} ⟨worst, hworst⟩) ∧
      (∀ xs ys, (∀ x, x ∈ xs ↔ x ∈ ys) →
        d.maxFiniteDifferenceError f xs h = d.maxFiniteDifferenceError f ys h) ∧
      (∀ xs ys, d.maxFiniteDifferenceError f (xs ++ ys) h = do
        let a ← d.maxFiniteDifferenceError f xs h
        let b ← d.maxFiniteDifferenceError f ys h
        return max a b) ∧
      ∀ points, d.maxFiniteDifferenceError f points h = d.strictFiniteDifferenceError f points h := by
  refine ⟨?_, fun points error x => maxFiniteDifferenceError_eq_error_iff x, ?_, ?_,
    maxFiniteDifferenceError_append hmax hzero hdistance d f h,
    fun points => maxFiniteDifferenceError_eq_strict d f points h⟩
  · intro points
    have hfails : (∃ error, f.evaluate 0 = .error error) ↔
        ¬ (f.body.boundBy f.param = true ∧ f.body.callsFit = true) := by
      have hvalue : (∃ y, f.evaluate 0 = .ok y) ↔
          f.body.boundBy f.param = true ∧ f.body.callsFit = true :=
        Expr.exists_evaluateAs_iff
      rw [← hvalue]
      cases f.evaluate 0 with
      | error error => simp
      | ok y => simp
    simp only [maxFiniteDifferenceError_eq_error_iff (0 : α), exists_and_left, hfails]
  · intro points worst hcheck
    exact isLargestGap_of_maxFiniteDifferenceError hmax hzero hdistance hcheck
  · intro xs ys hmem
    exact maxFiniteDifferenceError_congr hmax hzero hdistance hmem

/-- Floating-point numbers, with the magnitudes as the numbers in order. Of the function `x · x` and `x` instead of the derivative, the gaps at one and three with the step one are one and three. -/
theorem maxFiniteDifferenceError_isGreatest_binary64 :
    let x : Var := ⟨0, "x"⟩
    let y : Var := ⟨1, "y"⟩
    let f : Abstraction Binary64 := ⟨x, .mul (.var x) (.var x)⟩
    let g : Abstraction Binary64 := ⟨x, .add (.var x) (.var y)⟩
    let d : Derivative Binary64 := ⟨⟨x, .var x⟩, .ofTree (.var x) x⟩
    let three : Binary64 := ⟨0x4008000000000000⟩
    (∀ a b : {a : Binary64 // a.IsMagnitude}, max a.val b.val = (max a b).val) ∧
      Binary64.IsMagnitude 0 ∧
      (∀ a b : Binary64, Measured.isFinite a = true → Measured.isFinite b = true →
        (Measured.abs (a - b)).IsMagnitude) ∧
      d.maxFiniteDifferenceError f [1, three] 1 = .ok three ∧
      d.maxFiniteDifferenceError f [three, 1, three] 1 = .ok three ∧
      (∃ hworst : three.IsMagnitude, IsGreatest {gap : {a : Binary64 // a.IsMagnitude} | gap.val = 0 ∨
        ∃ a ∈ [1, three], d.gap? (centralDifference f.evaluateOrNan a 1) a = some gap.val}
        ⟨three, hworst⟩) ∧
      d.maxFiniteDifferenceError g [1, three] 1 = .error (.unboundVariable "y") := by
  intro x y f g d three
  have hzero : Binary64.IsMagnitude 0 := .zero
  have hdistance : ∀ a b : Binary64, Measured.isFinite a = true → Measured.isFinite b = true →
      (Measured.abs (a - b)).IsMagnitude :=
    fun a b ha hb => Binary64.isMagnitude_abs (Binary64.isNaN_sub ha hb)
  obtain ⟨_, _, hgreatest, hcongr, _⟩ :=
    maxFiniteDifferenceError_isGreatest Binary64.max_eq hzero hdistance d f 1
  obtain ⟨_, hfails, _⟩ := maxFiniteDifferenceError_isGreatest Binary64.max_eq hzero hdistance d g 1
  have hcheck : d.maxFiniteDifferenceError f [1, three] 1 = .ok three := by
    rw [maxFiniteDifferenceError_eq fun a => ⟨a * a, rfl⟩]
    exact congrArg Except.ok (by decide +kernel)
  refine ⟨Binary64.max_eq, hzero, hdistance, hcheck, ?_, hgreatest _ _ hcheck,
    (hfails _ _ 1).mpr ⟨List.cons_ne_nil _ _, rfl⟩⟩
  rw [← hcheck]
  refine hcongr _ _ fun a => ?_
  simp only [List.mem_cons, List.not_mem_nil, or_false]
  tauto

end Derivative

end Univariate
