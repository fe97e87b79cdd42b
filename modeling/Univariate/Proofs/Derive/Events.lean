import Univariate.Derivative
import Univariate.Proofs.Derive.Compiles
import Univariate.Proofs.Derive.Terms
import Univariate.Proofs.Derive.Tour

/-!
# The events of differentiation

What differentiation reports depends on the tree alone. The rules report the tour of the tree step by step, up to the first offence if there is one, and from these events a reader can tell how the terms are nested: the announcement of the chain rule and the derivative of the same call are a pair of brackets around the terms of the argument. Both are proved by induction over the tree, the one for the events of a tree as they are and the other for a reader who has read other events before. The events for the result come after the whole tour, and only when there is a program.
-/

namespace Univariate

namespace Expr

variable {α : Type}

/-! ### The events of the rules -/

/-- The event for a term with these derivatives, if there are any. -/
def finishing (term : Expr α) : Except Error (List (Expr α)) → List (Event α)
  | .ok ds => ds.map (.differentiatedTerm term)
  | .error _ => []

theorem events_finishTerm (term : Expr α) (derivative : Traced α (Expr α)) :
    (finishTerm term derivative).events =
      derivative.events ++ finishing term (finishTerm term derivative).outcome := by
  rw [outcome_finishTerm, finishTerm, Traced.events_bind]
  cases derivative.outcome <;> rfl

theorem events_chainRule (f : Func) {u : Expr α} (hu : u.asVar? = none) (outer : Expr α)
    (inner : Traced α (List (Expr α))) :
    (chainRule f u outer inner).events = .applyingChainRule f u :: inner.events := by
  have hrule : chainRule f u outer inner =
      Traced.report (.applyingChainRule f u) >>= fun _ => inner >>= fun us =>
        Traced.ofExcept (sum us) >>= fun d => pure (.mul outer d) := by
    cases u with
    | var w => cases hu
    | _ => rfl
  have hsum (us : List (Expr α)) :
      (Traced.ofExcept (sum us) >>= fun d => (pure (.mul outer d) : Traced α (Expr α))).events = [] := by
    cases us <;> rfl
  have hinner : (inner >>= fun us => Traced.ofExcept (sum us) >>= fun d =>
      (pure (.mul outer d) : Traced α (Expr α))).events = inner.events := by
    rw [Traced.events_bind]
    cases inner.outcome with
    | error error => exact List.append_nil _
    | ok us => exact (congrArg (inner.events ++ ·) (hsum us)).trans (List.append_nil _)
  rw [hrule, Traced.events_bind]
  exact congrArg (Event.applyingChainRule f u :: ·) hinner

variable [Zero α] [One α] [Neg α] [Add α] [Sub α] [Mul α] [BEq α] [Literal α] (v : Var)
  {γ : Type} [Count γ] [Counting α γ]

theorem events_deriveTerms_add (l r : Expr α) :
    (deriveTerms v (add l r)).events =
      (deriveTerms v l).events ++ match (deriveTerms v l).outcome with
        | .ok _ => (deriveTerms v r).events
        | .error _ => [] := by
  rw [deriveTerms, Traced.events_bind]
  cases (deriveTerms v l).outcome with
  | error error => rfl
  | ok ls =>
    change _ ++ ((deriveTerms v r) >>= fun rs => pure (ls ++ rs)).events = _
    rw [Traced.events_bind]
    cases (deriveTerms v r).outcome with
    | error error => exact congrArg (_ ++ ·) (List.append_nil _)
    | ok rs => exact congrArg (_ ++ ·) (List.append_nil _)

theorem events_deriveTerms_chained {f : Func} {u : Expr α} (h : (call f [u]).isChained = true) :
    (deriveTerms v (call f [u])).events =
      .applyingChainRule f u :: ((deriveTerms v u).events ++
        finishing (call f [u]) (deriveTerms v (call f [u])).outcome) := by
  obtain ⟨hf, hu⟩ := isChained_call_iff.mp h
  cases f with
  | pow => exact absurd rfl hf
  | sin | cos =>
    rw [deriveTerms, events_finishTerm, events_chainRule _ hu]
    rfl

theorem events_deriveTerms_single {e : Expr α} (he : e.terms = [e]) (h : e.isChained = false) :
    (deriveTerms v e).events = finishing e (deriveTerms v e).outcome := by
  cases e using arityInduction with
  | num n => rfl
  | var w => rfl
  | add l r => exact absurd he (terms_add_ne l r _)
  | mul l r => exact events_finishTerm _ _
  | sin u | cos u =>
    cases u with
    | var w => rfl
    | _ => cases h
  | pow base exponent => rfl
  | misfit f args hargs =>
    cases f with
    | pow => rfl
    | sin | cos =>
      match args, hargs with
      | [], _ => rfl
      | [_], hargs => exact absurd rfl hargs
      | _ :: _ :: _, _ => rfl

/-! ### The events of a tour -/

variable {v}

/-- Differentiation of the terms succeeds unless their tour meets an offence, which it then fails with. -/
theorem outcome_cases (v : Var) (enclosing : List (Expr α)) (e : Expr α) :
    (e.firstOffending? enclosing = none ∧ ∃ ts, DerivesTo v e ts) ∨
      ∃ visit error, e.firstOffending? enclosing = some visit ∧
        offence? visit.1.place visit.2 = some error ∧ (deriveTerms v e).outcome = .error error := by
  cases h : e.firstOffending? enclosing with
  | none =>
    have hnone := (firstOffending?_eq_none_iff enclosing).mp h
    exact .inl ⟨rfl, (isDifferentiable_of_no_offence hnone).exists_derivesTo v⟩
  | some visit =>
    have hoffence := firstOffence?_eq_bind enclosing e
    rw [h, Option.bind_some] at hoffence
    have hoffending : isOffending visit = true := List.find?_some h
    obtain ⟨error, herror⟩ := Option.isSome_iff_exists.mp hoffending
    rw [herror] at hoffence
    exact .inr ⟨visit, error, rfl, herror, outcome_deriveTerms_of_offence v hoffence⟩

theorem DerivesTo.exists_eq_singleton {t : Expr α} {ts : List (Expr α)} (h : DerivesTo v t ts)
    (ht : t.terms = [t]) : ∃ d, ts = [d] ∧ (deriveSum v t).outcome = .ok d := by
  have hterms := h.forall₂_terms
  rw [ht] at hterms
  obtain ⟨d, rest, _, hrest, rfl⟩ := List.forall₂_cons_left_iff.mp hterms
  obtain rfl := List.forall₂_nil_left_iff.mp hrest
  exact ⟨d, rfl, outcome_deriveSum_eq_ok_iff.mpr ⟨[d], h, rfl⟩⟩

theorem forall₂_reports_finishing (v : Var) (enclosing : List (Expr α)) {t : Expr α} (ht : t.terms = [t]) :
    List.Forall₂ (Step.Reports v) (if (t.firstOffending? enclosing).isNone then [.finish t] else [])
      (finishing t (deriveTerms v t).outcome) := by
  rcases outcome_cases v enclosing t with ⟨hnone, ts, hts⟩ | ⟨visit, error, hsome, _, houtcome⟩
  · obtain ⟨d, rfl, hd⟩ := hts.exists_eq_singleton ht
    rw [hnone, hts.outcome_eq]
    exact .cons (.finish hd) .nil
  · rw [hsome, houtcome]
    exact .nil

/-- The events report the tour up to the first offence, step by step. -/
theorem forall₂_reports (v : Var) (enclosing : List (Expr α)) (e : Expr α) :
    List.Forall₂ (Step.Reports v) (reported (e.tour enclosing)) (deriveTerms v e).events := by
  induction e using chainInduction generalizing enclosing with
  | add l r ihl ihr =>
    rw [reported_tour_add, events_deriveTerms_add]
    rcases outcome_cases v enclosing l with ⟨hnone, ts, hts⟩ | ⟨visit, error, hsome, _, houtcome⟩
    · rw [hnone, hts.outcome_eq]
      exact List.rel_append (ihl enclosing) (ihr enclosing)
    · rw [hsome, houtcome]
      exact List.rel_append (ihl enclosing) .nil
  | chained f u h ih =>
    rw [reported_tour_chained enclosing h, events_deriveTerms_chained v h]
    rw [← firstOffending?_chained enclosing h]
    exact .cons (.enter f u) (List.rel_append (ih _) (forall₂_reports_finishing v enclosing rfl))
  | single e he h =>
    rw [tour_single enclosing he h, reported_tourTerm, events_deriveTerms_single v he h]
    exact forall₂_reports_finishing v enclosing he

theorem level_of_reports {steps : List (Step α)} {events : List (Event α)}
    (h : List.Forall₂ (Step.Reports v) steps events) : ∀ event ∈ events, event.level = .trace := by
  induction h with
  | nil => exact List.forall_mem_nil _
  | cons hreports _ ih =>
    refine List.forall_mem_cons.mpr ⟨?_, ih⟩
    cases hreports <;> rfl

theorem events_deriveSum (v : Var) (e : Expr α) :
    (deriveSum v e).events = (deriveTerms v e).events := by
  rw [deriveSum, Traced.events_bind]
  cases (deriveTerms v e).outcome with
  | error error => exact List.append_nil _
  | ok ts => exact List.append_nil _

end Expr

/-! ### What a reader makes of the events -/

namespace Reader

variable {α : Type} {first next last : Reader α}

theorem ReadsAll.single {event : Event α} (h : Reads first event next) : ReadsAll first [event] next :=
  .cons h (.nil next)

theorem ReadsAll.append {events events' : List (Event α)} (h : ReadsAll first events next)
    (h' : ReadsAll next events' last) : ReadsAll first (events ++ events') last := by
  induction h with
  | nil => exact h'
  | cons hread _ ih => exact .cons hread (ih h')

variable [Zero α] [One α] [Neg α] [Add α] [Sub α] [Mul α] [BEq α] [Literal α] {v : Var}
  {γ : Type} [Count γ] [Counting α γ]

/-- A reader of the events of a tree without an offence gets to know its terms with their derivatives. -/
theorem readsAll_of_derivesTo {e : Expr α} {ts : List (Expr α)} (h : e.DerivesTo v ts)
    (finished : Finished α) (opened : List (OpenCall α)) :
    ReadsAll ⟨finished, opened⟩ (e.deriveTerms v).events ⟨finished ++ e.terms.zip ts, opened⟩ := by
  induction e using Expr.chainInduction generalizing ts finished opened with
  | add l r ihl ihr =>
    cases h with
    | add hl hr =>
      rw [Expr.events_deriveTerms_add, hl.outcome_eq, Expr.terms_add,
        List.zip_append hl.forall₂_terms.length_eq, ← List.append_assoc]
      exact (ihl hl finished opened).append (ihr hr _ opened)
  | chained f u hchained ih =>
    obtain ⟨d, rfl, _⟩ := h.exists_eq_singleton rfl
    have hu : u.IsDifferentiable := by
      cases h.isDifferentiable with
      | sin hu => exact hu
      | cos hu => exact hu
    obtain ⟨us, hus⟩ := hu.exists_derivesTo v
    have hfinished : (u.terms.zip us).map Prod.fst = u.terms :=
      List.map_fst_zip hus.forall₂_terms.length_eq.le
    have hclosing := @Reads.closing α ⟨f, u, finished⟩ _ opened d hfinished
    rw [Expr.events_deriveTerms_chained v hchained, h.outcome_eq]
    exact .cons (.opening f u finished opened) ((ih hus [] _).append (.single hclosing))
  | single e he hchained =>
    obtain ⟨d, rfl, _⟩ := h.exists_eq_singleton he
    rw [Expr.events_deriveTerms_single v he hchained, h.outcome_eq, he]
    exact .single (.term finished opened d hchained)

/-- At an offence exactly the calls around it are open. -/
theorem readsAll_of_offending {e : Expr α} {opened : List (OpenCall α)}
    {visit : Expr.Position α × Expr α}
    (h : e.firstOffending? (opened.map OpenCall.term) = some visit) (finished : Finished α) :
    ∃ reader, ReadsAll ⟨finished, opened⟩ (e.deriveTerms v).events reader ∧
      reader.opened.map OpenCall.term = visit.1.enclosing := by
  induction e using Expr.chainInduction generalizing finished opened with
  | add l r ihl ihr =>
    rw [Expr.firstOffending?_add] at h
    rw [Expr.events_deriveTerms_add]
    rcases Expr.outcome_cases v (opened.map OpenCall.term) l with
      ⟨hnone, ts, hts⟩ | ⟨_, error, hsome, _, houtcome⟩
    · rw [hnone, Option.none_or] at h
      obtain ⟨reader, hreads, hopened⟩ := ihr h (finished ++ l.terms.zip ts)
      rw [hts.outcome_eq]
      exact ⟨reader, (readsAll_of_derivesTo hts finished opened).append hreads, hopened⟩
    · rw [hsome, Option.some_or] at h
      rw [houtcome, List.append_nil]
      exact ihl (hsome.trans h) finished
  | chained f u hchained ih =>
    have hu := h
    rw [Expr.firstOffending?_chained _ hchained] at hu
    obtain ⟨reader, hreads, hopened⟩ := @ih (⟨f, u, finished⟩ :: opened) hu []
    rcases Expr.outcome_cases v (opened.map OpenCall.term) (.call f [u]) with
      ⟨hnone, _⟩ | ⟨_, error, _, _, houtcome⟩
    · rw [hnone] at h
      cases h
    · rw [Expr.events_deriveTerms_chained v hchained, houtcome, Expr.finishing, List.append_nil]
      exact ⟨reader, .cons (.opening f u finished opened) hreads, hopened⟩
  | single e he hchained =>
    rcases Expr.outcome_cases v (opened.map OpenCall.term) e with
      ⟨hnone, _⟩ | ⟨_, error, _, _, houtcome⟩
    · rw [hnone] at h
      cases h
    · rw [Expr.events_deriveTerms_single v he hchained, houtcome]
      exact ⟨_, .nil _, (Expr.enclosing_of_firstOffending? he hchained h).symm⟩

end Reader

/-! ### The events in words -/

/-- What has happened, and the details by name. -/
abbrev LogEntry := String × List (String × Detail)

def Event.logged {α : Type} [Literal α] (event : Event α) : LogEntry := (event.message, event.details)

namespace Expr

variable {α : Type} [Literal α]

def loggedTerm (t : Expr α) (derivative : String) : LogEntry :=
  ("differentiated term", [("term", .text t.text), ("derivative", .text derivative)])

inductive Step.LoggedAs : Step α → LogEntry → Prop where
  | enter (f : Func) (u : Expr α) :
    LoggedAs (.enter f u) ("applying chain rule", [("func", .text f.name), ("argument", .text u.text)])
  | finish (t : Expr α) (derivative : String) : LoggedAs (.finish t) (loggedTerm t derivative)

variable [Zero α] [One α] [Neg α] [Add α] [Sub α] [Mul α] [BEq α]
  {γ : Type} [Count γ] [Counting α γ] {v : Var}

theorem Step.Reports.loggedAs {step : Step α} {event : Event α} (h : step.Reports v event) :
    step.LoggedAs event.logged := by
  cases h with
  | enter f u => exact .enter f u
  | finish _ => exact .finish _ _

/-- The derivatives of the terms are reported in the order of the terms, between what is reported of their arguments. -/
theorem DerivesTo.sublist_events {e : Expr α} {ts : List (Expr α)} (h : DerivesTo v e ts) :
    (List.zipWith .differentiatedTerm e.terms ts).Sublist (deriveTerms v e).events := by
  induction e using chainInduction generalizing ts with
  | add l r ihl ihr =>
    cases h with
    | add hl hr =>
      rw [events_deriveTerms_add, hl.outcome_eq, terms_add,
        List.zipWith_append hl.forall₂_terms.length_eq]
      exact (ihl hl).append (ihr hr)
  | chained f u hchained _ =>
    obtain ⟨d, rfl, _⟩ := h.exists_eq_singleton rfl
    rw [events_deriveTerms_chained v hchained, h.outcome_eq]
    exact (List.sublist_append_right _ _).cons _
  | single e he hchained =>
    obtain ⟨d, rfl, _⟩ := h.exists_eq_singleton he
    rw [events_deriveTerms_single v he hchained, h.outcome_eq, he]
    exact .refl _

end Expr

/-! ### Within limits -/

namespace Expr

variable {α : Type}

theorem text_sum [Literal α] {ts : List (Expr α)} {d : Expr α} (h : sum ts = .ok d) :
    d.text = " + ".intercalate (ts.map text) := by
  obtain ⟨t, us, rfl, rfl⟩ := sum_eq_ok_iff.mp h
  clear h
  induction us generalizing t with
  | nil => rfl
  | cons u us ih => exact ih (add t u)

variable [Zero α] [One α] [Neg α] [Add α] [Sub α] [Mul α] [BEq α] [Literal α]
  {γ : Type} [Count γ] [Counting α γ]

/-- The events report the tour of the tree before its first offence, where the calls around the offence are open. -/
structure StoppedTour (v : Var) (e : Expr α) (events : List (Event α)) (error : Error) : Prop where
  reports : List.Forall₂ (Step.Reports v) (reported (e.tour [])) events
  reads : ∃ position node reader, e.firstOffending? [] = some (position, node) ∧
    offence? position.place node = some error ∧ Reader.ReadsAll {} events reader ∧
    reader.opened.map OpenCall.term = position.enclosing

/-- The events report the whole tour of the tree. In the end nothing is open, and `d` is the sum of the derivatives that are reported for the terms of the tree. -/
structure WholeTour (v : Var) (e : Expr α) (events : List (Event α)) (d : Expr α) : Prop where
  allowed : e.firstOffending? [] = none
  reports : List.Forall₂ (Step.Reports v) ((e.tour []).filter Step.isReported) events
  reads : ∃ ds : List (Expr α), ds.length = e.terms.length ∧
    Reader.ReadsAll {} events ⟨e.terms.zip ds, []⟩ ∧ sum ds = .ok d ∧
    d.text = " + ".intercalate (ds.map text)

theorem stoppedTour (v : Var) {e : Expr α} {visit : Position α × Expr α} {error : Error}
    (h : e.firstOffending? [] = some visit) (herror : offence? visit.1.place visit.2 = some error) :
    e.StoppedTour v (deriveTerms v e).events error where
  reports := forall₂_reports v [] e
  reads := by
    have hoffending : e.firstOffending? (([] : List (OpenCall α)).map OpenCall.term) = some visit := h
    obtain ⟨reader, hreads, hopened⟩ := Reader.readsAll_of_offending (v := v) hoffending []
    exact ⟨visit.1, visit.2, reader, h, herror, hreads, hopened⟩

theorem DerivesTo.wholeTour {v : Var} {e d : Expr α} {ts : List (Expr α)} (h : DerivesTo v e ts)
    (hd : sum ts = .ok d) : e.WholeTour v (deriveTerms v e).events d where
  allowed := (firstOffending?_eq_none_iff []).mpr h.isDifferentiable.firstOffence?_eq_none
  reports := by
    have hallowed := (firstOffending?_eq_none_iff []).mpr h.isDifferentiable.firstOffence?_eq_none
    rw [← reported_of_all]
    · exact forall₂_reports v [] e
    · rw [all_isAllowed_tour, hallowed]
      rfl
  reads := ⟨ts, h.forall₂_terms.length_eq.symm, Reader.readsAll_of_derivesTo h [] [], hd, text_sum hd⟩

end Expr

namespace Abstraction

variable {α : Type} [DecidableEq α]

/-- What comes after the rules: the program of the derivative and the events for both, or nothing. -/
def finishDerivative (f : Abstraction α) (d : Expr α) : Traced α (Derivative α) :=
  match Program.compile d f.param with
  | .ok program =>
    ⟨[.compiled d.nodeCount program.code.size program.pool.size program.stackSize, .differentiated d],
      .ok ⟨⟨f.param, d⟩, program⟩⟩
  | .error error => ⟨[], .error error⟩

theorem finishDerivative_of_ok {f : Abstraction α} {d : Expr α} {program : Program α}
    (h : Program.compile d f.param = .ok program) :
    f.finishDerivative d =
      ⟨[.compiled d.nodeCount d.nodeCount program.pool.size program.stackSize, .differentiated d],
        .ok ⟨⟨f.param, d⟩, program⟩⟩ := by
  rw [finishDerivative, h]
  simp only [Program.size_code h]

theorem finishDerivative_of_error {f : Abstraction α} {d : Expr α} {error : Error}
    (h : Program.compile d f.param = .error error) : f.finishDerivative d = ⟨[], .error error⟩ := by
  rw [finishDerivative, h]

end Abstraction

namespace Limits

variable {α : Type} [Zero α] [One α] [Neg α] [Add α] [Sub α] [Mul α] [BEq α] [Literal α]
  {γ : Type} [Count γ] [Counting α γ]

/-- Whether the rules are applied to the body of the function at all. -/
def Admits (limits : Limits) (f : Abstraction α) : Prop :=
  limits.check f.body = .ok () ∧ f.body.boundBy f.param = true

/-- The events of differentiating a function after the first one, those of the rules apart from those for the result, and the outcome. -/
inductive Trace [DecidableEq α] (limits : Limits) (f : Abstraction α) :
    List (Event α) → List (Event α) → Except Error (Derivative α) → Prop where
  | refused {error : Error} : ¬ limits.Admits f → Trace limits f [] [] (.error error)
  | stopped {events : List (Event α)} {error : Error} :
    limits.Admits f → f.body.StoppedTour f.param events error →
    Trace limits f events [] (.error error)
  | overflow {events : List (Event α)} {d : Expr α} {error : Error} :
    limits.Admits f → f.body.WholeTour f.param events d → Program.compile d f.param = .error error →
    Trace limits f events [] (.error error)
  /-- The program has one instruction for each node of the derivative. -/
  | finished {events : List (Event α)} {d : Expr α} {program : Program α} :
    limits.Admits f → f.body.WholeTour f.param events d → Program.compile d f.param = .ok program →
    Trace limits f events
      [.compiled d.nodeCount d.nodeCount program.pool.size program.stackSize, .differentiated d]
      (.ok ⟨⟨f.param, d⟩, program⟩)

theorem derive_of_admits {limits : Limits} {f : Abstraction α} (h : limits.Admits f) :
    limits.derive f.param f.body = f.body.deriveSum f.param := by
  have hbound : checkBound f.param f.body = .ok () := by
    rw [checkBound, Expr.stranger?_eq_find?, Expr.find?_occurrences_eq_none_iff.mpr h.2]
  rw [derive, h.1, hbound]
  rfl

theorem derive_of_not_admits {limits : Limits} {f : Abstraction α} (h : ¬ limits.Admits f) :
    ∃ error, limits.derive f.param f.body = Traced.fail error := by
  rw [derive, checkBound, Expr.stranger?_eq_find?]
  cases hcheck : limits.check f.body with
  | error error => exact ⟨error, rfl⟩
  | ok _ =>
    cases hbound : f.body.occurrences.find? fun w => !(w == f.param) with
    | some w => exact ⟨_, rfl⟩
    | none => exact absurd ⟨hcheck, Expr.find?_occurrences_eq_none_iff.mp hbound⟩ h

variable [DecidableEq α]

theorem differentiate_eq (limits : Limits) (f : Abstraction α) :
    limits.differentiate f =
      Traced.report (.differentiating f.body f.param) >>= fun _ =>
        limits.derive f.param f.body >>= f.finishDerivative := by
  have hfinish (d : Expr α) :
      (do
        let program ← Traced.ofExcept (Program.compile d f.param)
        Traced.report (.compiled d.nodeCount program.code.size program.pool.size program.stackSize)
        Traced.report (.differentiated d)
        return ⟨⟨f.param, d⟩, program⟩ : Traced α (Derivative α)) = f.finishDerivative d := by
    rw [Abstraction.finishDerivative]
    cases Program.compile d f.param <;> rfl
  simp only [differentiate, hfinish]

theorem differentiate_of_ok {limits : Limits} {f : Abstraction α} {d : Expr α}
    (h : (limits.derive f.param f.body).outcome = .ok d) :
    limits.differentiate f =
      ⟨.differentiating f.body f.param ::
          ((limits.derive f.param f.body).events ++ (f.finishDerivative d).events),
        (f.finishDerivative d).outcome⟩ := by
  rw [differentiate_eq]
  generalize limits.derive f.param f.body = body at h ⊢
  obtain ⟨events, outcome⟩ := body
  cases h
  rfl

theorem differentiate_of_error {limits : Limits} {f : Abstraction α} {error : Error}
    (h : (limits.derive f.param f.body).outcome = .error error) :
    limits.differentiate f =
      ⟨.differentiating f.body f.param :: (limits.derive f.param f.body).events, .error error⟩ := by
  rw [differentiate_eq]
  generalize limits.derive f.param f.body = body at h ⊢
  obtain ⟨events, outcome⟩ := body
  cases h
  rfl

/-- What is logged of a run that succeeds. The texts of the terms and their derivatives are those of the events for the terms at the top, and joined by signs they are the text of the result; the nodes are counted alike by the events for the program and for the result. -/
theorem logged_differentiate {limits : Limits} {f : Abstraction α} {d : Derivative α}
    (h : (limits.differentiate f).outcome = .ok d) :
    ∃ (rules : List LogEntry) (texts : List String),
      (limits.differentiate f).events.map Event.logged =
        ("differentiating", [("function", .text f.body.text), ("var", .text f.param.name),
          ("nodes", .count f.body.nodeCount)]) ::
        (rules ++ [
          ("compiled expression", [("nodes", .count d.function.body.nodeCount),
            ("instructions", .count d.function.body.nodeCount), ("constants", .count d.program.pool.size),
            ("stack_size", .count d.program.stackSize)]),
          ("differentiated", [("derivative", .text (" + ".intercalate texts)),
            ("nodes", .count d.function.body.nodeCount)])]) ∧
      List.Forall₂ Expr.Step.LoggedAs ((f.body.tour []).filter Expr.Step.isReported) rules ∧
      (List.zipWith Expr.loggedTerm f.body.terms texts).Sublist rules ∧
      texts.length = f.body.terms.length := by
  obtain ⟨hbody, hprogram⟩ := of_outcome_differentiate h
  obtain ⟨hdepth, hnodes, hbound, ts, hts, hd⟩ := outcome_derive_eq_ok_iff.mp hbody
  have hevents : (limits.derive f.param f.body).events = (f.body.deriveTerms f.param).events := by
    rw [derive_of_admits ⟨check_eq_ok_iff.mpr ⟨hdepth, hnodes⟩, hbound⟩, Expr.events_deriveSum]
  refine ⟨(f.body.deriveTerms f.param).events.map Event.logged, ts.map Expr.text, ?_, ?_, ?_, ?_⟩
  · rw [differentiate_of_ok hbody, Abstraction.finishDerivative_of_ok hprogram, hevents, List.map_cons,
      List.map_append, ← Expr.text_sum hd]
    rfl
  · exact List.forall₂_map_right_iff.mpr ((hts.wholeTour hd).reports.imp fun _ _ h => h.loggedAs)
  · have hreported := hts.sublist_events.map Event.logged
    rw [List.map_zipWith] at hreported
    rw [List.zipWith_map_right]
    exact hreported
  · rw [List.length_map, hts.forall₂_terms.length_eq]

/-- Differentiation reports its start and then, for a function that is not refused outright, the tour of the body up to the first offence, in which the derivative of a call closes the bracket that its chain rule opens around the terms of its argument. After a whole tour come the events for the program, with as many instructions as nodes, and for the derivative, of which the text is put together from those of the derivatives at the top. -/
theorem differentiate_trace (limits : Limits) (f : Abstraction α) :
    ∃ events result, (limits.differentiate f).events =
        .differentiating f.body f.param :: (events ++ result) ∧
      (∀ event ∈ events, event.level = .trace) ∧
      (∀ event ∈ .differentiating f.body f.param :: result, event.level = .debug) ∧
      limits.Trace f events result (limits.differentiate f).outcome := by
  by_cases hadmits : limits.Admits f
  · have hlevels := Expr.level_of_reports (Expr.forall₂_reports f.param [] f.body)
    have hevents := congrArg Traced.events (derive_of_admits hadmits)
    rw [Expr.events_deriveSum] at hevents
    rcases Expr.outcome_cases f.param [] f.body with ⟨_, ts, hts⟩ | ⟨visit, error, hvisit, herror, houtcome⟩
    · obtain ⟨d, hd⟩ := hts.exists_sum
      have htour := hts.wholeTour hd
      have hok : (limits.derive f.param f.body).outcome = .ok d := by
        rw [derive_of_admits hadmits]
        exact Expr.outcome_deriveSum_eq_ok_iff.mpr ⟨ts, hts, hd⟩
      rw [differentiate_of_ok hok, hevents]
      refine ⟨_, _, rfl, hlevels, ?_⟩
      cases hprogram : Program.compile d f.param with
      | error error =>
        rw [Abstraction.finishDerivative_of_error hprogram]
        exact ⟨by simp [Event.level], .overflow hadmits htour hprogram⟩
      | ok program =>
        rw [Abstraction.finishDerivative_of_ok hprogram]
        exact ⟨by simp [Event.level], .finished hadmits htour hprogram⟩
    · have hstopped := Expr.stoppedTour f.param hvisit herror
      have herror : (limits.derive f.param f.body).outcome = .error error := by
        rw [derive_of_admits hadmits, Expr.deriveSum, Traced.outcome_bind, houtcome]
        rfl
      rw [differentiate_of_error herror, hevents]
      exact ⟨_, [], (congrArg _ (List.append_nil _)).symm, hlevels, by simp [Event.level],
        .stopped hadmits hstopped⟩
  · obtain ⟨error, herror⟩ := derive_of_not_admits hadmits
    rw [differentiate_of_error (congrArg Traced.outcome herror), herror]
    exact ⟨[], [], rfl, List.forall_mem_nil _, by simp [Event.level], .refused hadmits⟩

/-- For `sin (x + cos (pow (x, 0)))` the chain rule is announced twice and nothing but the first `x` is finished. -/
example :
    let x : Var := ⟨0, "x"⟩
    let f : Abstraction Binary64 := ⟨x, (Expr.add (.var x) (Expr.pow (.var x) (.num 0)).cos).sin⟩
    ((differentiate ⟨9, 9⟩ f).events.map Event.message) =
      ["differentiating", "applying chain rule", "differentiated term", "applying chain rule"] := rfl

end Limits

end Univariate
