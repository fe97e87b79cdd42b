import Univariate.Proofs.Code.Run

/-!
# Evaluation at many points

The buffer for the stack is emptied before each point, so nothing that is left in it has a part in the value. Hence one buffer does for many points, and the points may be divided into pieces in any way, each with whatever buffer: the values are those at the single points, in their order.
-/

namespace Univariate

namespace Program

variable {α : Type}

theorem flatten_halves (depth : Nat) (xs : List α) : (halves depth xs).flatten = xs := by
  induction depth generalizing xs with
  | zero => simp [halves]
  | succ depth ih => rw [halves, List.flatten_append, ih, ih, List.take_append_drop]

variable [Add α] [Mul α] [Elementary α] [Measured α]

theorem evaluateWith_eq (p : Program α) (buffer : Array α) (x : α) :
    p.evaluateWith buffer x = Instr.pop (p.run x #[]) := by
  have hempty : buffer.shrink 0 = #[] := by simp
  rw [evaluateWith, hempty]

theorem evaluateFrom_cons (p : Program α) (buffer : Array α) (x : α) (xs : List α) :
    p.evaluateFrom buffer (x :: xs) =
      (p.evaluateWith buffer x).1 :: p.evaluateFrom (p.evaluateWith buffer x).2 xs := rfl

theorem evaluateFrom_eq_map (p : Program α) (buffer : Array α) (xs : List α) :
    p.evaluateFrom buffer xs = xs.map p.evaluate := by
  -- Each point leaves another buffer to the next, so the induction leaves the buffer open.
  induction xs generalizing buffer with
  | nil => rfl
  | cons x xs ih =>
    have hvalue : (p.evaluateWith buffer x).1 = p.evaluate x := by
      rw [evaluate, evaluateWith_eq, evaluateWith_eq]
    rw [evaluateFrom_cons, List.map_cons, hvalue, ih]

theorem evaluateBatch_eq_map (p : Program α) (xs : List α) :
    p.evaluateBatch xs = xs.map p.evaluate :=
  p.evaluateFrom_eq_map _ xs

theorem evaluatePieces_cons (p : Program α) (piece : Array α × List α)
    (pieces : List (Array α × List α)) :
    p.evaluatePieces (piece :: pieces) =
      p.evaluateFrom piece.1 piece.2 ++ p.evaluatePieces pieces := rfl

theorem evaluatePieces_eq_map (p : Program α) (pieces : List (Array α × List α)) :
    p.evaluatePieces pieces = (pieces.map Prod.snd).flatten.map p.evaluate := by
  induction pieces with
  | nil => rfl
  | cons piece pieces ih =>
    rw [evaluatePieces_cons, List.map_cons, List.flatten_cons, List.map_append, ih,
      evaluateFrom_eq_map]

theorem evaluateDividedBy_eq_map (p : Program α) {divide : List α → List (Array α × List α)}
    {xs : List α} (h : ((divide xs).map Prod.snd).flatten = xs) :
    p.evaluateDividedBy divide xs = xs.map p.evaluate := by
  rw [evaluateDividedBy]
  split
  case isTrue => exact p.evaluateBatch_eq_map xs
  case isFalse => rw [evaluatePieces_eq_map, h]

theorem evaluateDivided_eq_map (p : Program α) (depth : Nat) (xs : List α) :
    p.evaluateDivided depth xs = xs.map p.evaluate := by
  apply evaluateDividedBy_eq_map
  rw [List.map_map]
  change ((halves depth xs).map id).flatten = xs
  rw [List.map_id, flatten_halves]

theorem mapM_evaluate_of_compile [DecidableEq α] {p : Program α} {e : Expr α} {param : Var}
    (h : compile e param = .ok p) (xs : List α) :
    xs.mapM (e.evaluate param) = .ok (xs.map p.evaluate) := by
  obtain ⟨⟨hbound, hfit, _⟩, _⟩ := compile_eq_ok_iff.mp h
  induction xs with
  | nil => rfl
  | cons x xs ih =>
    obtain ⟨y, hy⟩ := Expr.exists_evaluateAs id x hbound hfit
    have hvalue : e.evaluate param x = .ok (p.evaluate x) := by
      rw [evaluate_of_compile h hy]
      exact hy
    rw [List.mapM_cons, hvalue, ih]
    rfl

/-- Computed in one buffer, or divided into pieces in any way, each with a buffer in which anything may be left, the values at many points are the values at each of them, in their order. For a compiled program these are the values of the tree. -/
theorem many_points_pointwise [DecidableEq α] (p : Program α) (xs : List α) :
    p.evaluateBatch xs = xs.map p.evaluate ∧
      (∀ divide : List α → List (Array α × List α), ((divide xs).map Prod.snd).flatten = xs →
        p.evaluateDividedBy divide xs = xs.map p.evaluate) ∧
      (∀ depth, p.evaluateDivided depth xs = xs.map p.evaluate) ∧
      ∀ (e : Expr α) (param : Var), compile e param = .ok p →
        xs.mapM (e.evaluate param) = .ok (xs.map p.evaluate) :=
  ⟨p.evaluateBatch_eq_map xs, fun _ h => p.evaluateDividedBy_eq_map h,
    fun depth => p.evaluateDivided_eq_map depth xs, fun _ _ h => mapM_evaluate_of_compile h xs⟩

/-- The square at three hundred points, cut at the hundredth, where one buffer holds more than the code ever needs and a piece may be empty. -/
theorem many_points_pointwise_square :
    let x : Var := ⟨0, "x"⟩
    let e : Expr Binary64 := .mul (.var x) (.var x)
    let p : Program Binary64 := ⟨x, #[.loadParam, .loadParam, .mul], #[], 2⟩
    let xs : List Binary64 := List.replicate 300 1
    let divide : List Binary64 → List (Array Binary64 × List Binary64) :=
      fun xs => [(#[0, 1, 0, 1], xs.take 100), (#[1], []), (#[], xs.drop 100)]
    divisionThreshold ≤ xs.length ∧ compile e x = .ok p ∧
      p.evaluateBatch xs = xs.map p.evaluate ∧
      p.evaluateDividedBy divide xs = xs.map p.evaluate ∧
      xs.mapM (e.evaluate x) = .ok (xs.map p.evaluate) := by
  intro x e p xs divide
  have hmany : divisionThreshold ≤ xs.length := by
    rw [List.length_replicate]
    decide
  have hcompile : compile e x = .ok p := rfl
  have hpieces : ((divide xs).map Prod.snd).flatten = xs := by simp [divide]
  obtain ⟨hbatch, hdivided, -, htree⟩ := many_points_pointwise p xs
  exact ⟨hmany, hcompile, hbatch, hdivided divide hpieces, htree e x hcompile⟩

end Program

end Univariate
