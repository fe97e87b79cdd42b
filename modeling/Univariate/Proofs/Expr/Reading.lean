import Univariate.Proofs.Expr.Regrouping

/-!
# Reading the text of a tree

The text of a tree tells the tree up to regrouping. Where a part of the text ends is seen from what comes next: a word ends before a character that no word holds, a factor before a sign of multiplication or the end of its term, a term before a sign of addition or the end of its sum, and a sum before a comma, a closing parenthesis or the end of the text. So texts that begin with two trees and go on like that can only be the same when the trees are regroupings of each other and the rests are the same. As the parts are joined by separators on three levels, with nothing else around them, one lemma about joined texts serves for terms, factors and arguments.
-/

namespace Univariate

/-! ### Texts that go on in the same way -/

/-- Of texts that `x` and `y` begin, with rests of the given kind, only those with the same rest can be the same, and only if `P` holds. -/
def Splits (rest : List Char → Prop) (P : Prop) (x y : List Char) : Prop :=
  ∀ s t, rest s → rest t → x ++ s = y ++ t → P ∧ s = t

namespace Splits

variable {rest rest' : List Char → Prop} {P P' : Prop} {x y : List Char}

theorem imp (h : Splits rest P x y) (hrest : ∀ s, rest' s → rest s) (hP : P → P') :
    Splits rest' P' x y := by
  intro s t hs ht heq
  obtain ⟨hp, hst⟩ := h s t (hrest s hs) (hrest t ht) heq
  exact ⟨hP hp, hst⟩

theorem symm (h : Splits rest P x y) : Splits rest P y x := by
  intro s t hs ht heq
  obtain ⟨hp, hst⟩ := h t s ht hs heq.symm
  exact ⟨hp, hst.symm⟩

theorem append_left (h : Splits rest P x y) (w : List Char) : Splits rest P (w ++ x) (w ++ y) := by
  intro s t hs ht heq
  rw [List.append_assoc, List.append_assoc] at heq
  exact h s t hs ht (List.append_cancel_left heq)

theorem append_right (h : Splits rest P x y) {w : List Char} (hw : ∀ s, rest (w ++ s)) :
    Splits rest' P (x ++ w) (y ++ w) := by
  intro s t _ _ heq
  rw [List.append_assoc, List.append_assoc] at heq
  obtain ⟨hp, hst⟩ := h _ _ (hw s) (hw t) heq
  exact ⟨hp, List.append_cancel_left hst⟩

theorem separated {sep x' y' : List Char} (h : Splits (fun s => rest s ∨ sep <+: s) P x y)
    (h' : Splits rest P' x' y') : Splits rest (P ∧ P') (x ++ (sep ++ x')) (y ++ (sep ++ y')) := by
  intro s t hs ht heq
  simp only [List.append_assoc] at heq
  obtain ⟨hp, hrest⟩ := h _ _ (.inr (List.prefix_append _ _)) (.inr (List.prefix_append _ _)) heq
  obtain ⟨hp', hst⟩ := h' s t hs ht (List.append_cancel_left hrest)
  exact ⟨⟨hp, hp'⟩, hst⟩

section Separator

variable {sep : List Char} (hsep : ∀ s, rest s → ¬sep <+: s)

include hsep

/-- A text that is over is told from one that goes on with the separator. -/
theorem before_separator (h : Splits (fun s => rest s ∨ sep <+: s) P x y) (z : List Char) :
    Splits rest P' x (y ++ (sep ++ z)) := by
  intro s t hs _ heq
  rw [List.append_assoc, List.append_assoc] at heq
  obtain ⟨_, rfl⟩ := h s _ (.inl hs) (.inr (List.prefix_append _ _)) heq
  exact absurd (List.prefix_append _ _) (hsep _ hs)

/-- Lists that are joined by a separator can be told apart when their members can, as long as what follows the lists does not look like the separator. -/
theorem intercalate {β : Type} {Q : β → β → Prop} {f : β → List Char} {as bs : List β} (has : as ≠ [])
    (hbs : bs ≠ [])
    (h : ∀ a ∈ as, ∀ b ∈ bs, Splits (fun s => rest s ∨ sep <+: s) (Q a b) (f a) (f b)) :
    Splits rest (List.Forall₂ Q as bs) (sep.intercalate (as.map f)) (sep.intercalate (bs.map f)) := by
  induction as generalizing bs with
  | nil => exact absurd rfl has
  | cons a as ih =>
    cases bs with
    | nil => exact absurd rfl hbs
    | cons b bs =>
      have hab := h a List.mem_cons_self b List.mem_cons_self
      have hmembers := fun a ha b hb => h a (List.mem_cons_of_mem _ ha) b (List.mem_cons_of_mem _ hb)
      cases as with
      | nil =>
        cases bs with
        | nil =>
          simp only [List.map_cons, List.map_nil, List.intercalate_singleton]
          exact hab.imp (fun _ => .inl) fun hq => .cons hq .nil
        | cons b' bs =>
          simp only [List.map_cons, List.map_nil, List.intercalate_singleton,
            List.intercalate_cons_cons, List.append_assoc]
          exact hab.before_separator hsep _
      | cons a' as =>
        cases bs with
        | nil =>
          simp only [List.map_cons, List.map_nil, List.intercalate_singleton,
            List.intercalate_cons_cons, List.append_assoc]
          exact (hab.symm.before_separator hsep _).symm
        | cons b' bs =>
          have hothers := ih (List.cons_ne_nil _ _) (List.cons_ne_nil _ _) hmembers
          simp only [List.map_cons, List.intercalate_cons_cons, List.append_assoc] at hothers ⊢
          exact (hab.separated hothers).imp (fun _ hs => hs) fun hq => .cons hq.1 hq.2

end Separator

end Splits

/-! ### Words -/

/-- Whether a character can be part of a number, a name or the name of a function. -/
def isWordChar (c : Char) : Bool := c.isAlphanum || c == '_' || c == '.' || c == '-'

def IsWord (w : List Char) : Prop := w ≠ [] ∧ ∀ c ∈ w, isWordChar c = true

theorem isWord_of_all {w : List Char} (hne : w ≠ []) (hw : w.all isWordChar = true) : IsWord w :=
  ⟨hne, List.all_eq_true.mp hw⟩

theorem IsWord.head {w : List Char} (hw : IsWord w) (s : List Char) :
    ∃ c t, w ++ s = c :: t ∧ isWordChar c = true := by
  obtain ⟨c, t, rfl⟩ := List.exists_cons_of_ne_nil hw.1
  exact ⟨c, t ++ s, rfl, hw.2 c List.mem_cons_self⟩

/-- The text goes on with a character that ends a word, or it is over. -/
def EndsWord (s : List Char) : Prop := ∀ c ∈ s.head?, isWordChar c = false

theorem endsWord_paren (s : List Char) : EndsWord ('(' :: s) := by
  intro c hc
  obtain rfl := Option.some.inj hc
  decide

theorem splits_word {x y : List Char} (hx : ∀ c ∈ x, isWordChar c = true)
    (hy : ∀ c ∈ y, isWordChar c = true) : Splits EndsWord (x = y) x y := by
  intro s t hs ht heq
  have htake {w u : List Char} (hw : ∀ c ∈ w, isWordChar c = true) (hu : EndsWord u) :
      (w ++ u).takeWhile isWordChar = w := by
    rw [List.takeWhile_append_of_pos hw]
    cases u with
    | nil => rw [List.takeWhile_nil, List.append_nil]
    | cons c u =>
      rw [List.takeWhile_cons_of_neg (Bool.eq_false_iff.mp (hu c rfl)), List.append_nil]
  have hxy : x = y := by
    rw [← htake hx hs, heq, htake hy ht]
  rw [hxy] at heq
  exact ⟨hxy, List.append_cancel_left heq⟩

/-! ### Where a part of a tree ends -/

/-- The text goes on as it does after an argument or a sum in parentheses, or it is over. -/
def EndsSum (s : List Char) : Prop := ∀ c ∈ s.head?, c = ',' ∨ c = ')'

def EndsTerm (s : List Char) : Prop := EndsSum s ∨ " + ".toList <+: s

def EndsFactor (s : List Char) : Prop := EndsTerm s ∨ " * ".toList <+: s

theorem EndsFactor.head {s : List Char} (h : EndsFactor s) :
    ∀ c ∈ s.head?, c = ' ' ∨ c = ',' ∨ c = ')' := by
  intro c hc
  rcases h with (h | ⟨t, rfl⟩) | ⟨t, rfl⟩
  · exact .inr (h c hc)
  · exact .inl (Option.some.inj hc).symm
  · exact .inl (Option.some.inj hc).symm

theorem EndsFactor.endsWord {s : List Char} (h : EndsFactor s) : EndsWord s := by
  intro c hc
  rcases h.head c hc with rfl | rfl | rfl <;> decide

theorem EndsSum.not_plus {s : List Char} (h : EndsSum s) : ¬" + ".toList <+: s := by
  rintro ⟨t, rfl⟩
  exact absurd (h ' ' rfl) (by decide)

theorem EndsTerm.not_times {s : List Char} (h : EndsTerm s) : ¬" * ".toList <+: s := by
  intro htimes
  rcases h with h | hplus
  · obtain ⟨t, rfl⟩ := htimes
    exact absurd (h ' ' rfl) (by decide)
  · exact absurd (List.prefix_of_prefix_length_le hplus htimes (by decide)) (by decide)

namespace Expr

variable {α : Type} [Literal α] {R : α → α → Prop} {vs : List Var}

/-! ### The words of a tree -/

theorem IsIdentifier.isWord {name : String} (h : IsIdentifier name) : IsWord name.toList := by
  obtain ⟨c, cs, hname, hc, hcs⟩ := h
  rw [hname]
  refine ⟨List.cons_ne_nil c cs, ?_⟩
  intro d hd
  rcases List.mem_cons.mp hd with rfl | hd
  · simp [isWordChar, Char.isAlphanum, hc]
  · rcases hcs d hd with hd | rfl
    · simp [isWordChar, hd]
    · decide

theorem isWord_name (f : Func) : IsWord f.name.toList := by
  cases f <;> exact isWord_of_all (by decide) (by decide)

/-- Numbers that are written as words, not as the names of variables are, and that their texts tell up to `R`. -/
structure LegibleNumbers (R : α → α → Prop) : Prop where
  isWord (n : α) : IsWord (Literal.text n).toList
  ne_name (n : α) (name : String) :
    IsIdentifier name → name ≠ "NaN" ∧ name ≠ "Infinity" → Literal.text n ≠ name
  related (m n : α) : Literal.text m = Literal.text n → R m n

theorem toList_text_call (f : Func) (args : List (Expr α)) :
    (call f args).text.toList =
      f.name.toList ++ '(' :: (", ".toList.intercalate (args.map fun a => a.text.toList) ++ [')']) := by
  rw [text, argTexts_eq_map]
  simp only [String.toList_append, String.toList_intercalate, List.map_map, List.append_assoc]
  rfl

theorem toList_operandText_true (u : Expr α) :
    (operandText (true, u)).toList = '(' :: (u.text.toList ++ [')']) := by
  simp only [operandText, parenthesize, if_true, String.toList_append, List.append_assoc]
  rfl

/-! ### How a text begins -/

theorem splits_of_head_ne {rest : List Char → Prop} {P : Prop} {x y s t : List Char} {c d : Char}
    (hx : x = c :: s) (hy : y = d :: t) (hcd : c ≠ d) : Splits rest P x y := by
  subst hx hy
  intro _ _ _ _ heq
  exact absurd (List.cons.inj heq).1 hcd

theorem ne_of_isWordChar {c d : Char} (hc : isWordChar c = true) (hd : isWordChar d = false) : c ≠ d := by
  rintro rfl
  rw [hc] at hd
  cases hd

section Legible

variable (hR : LegibleNumbers R) (hvs : NamedApart vs)

include hR hvs

/-- A tree that is neither a sum nor a product begins with a word. -/
theorem head_of_atom {e : Expr α} (he : e.occurrences ⊆ vs) (hsum : e.isSum = false)
    (hmul : e.isMul = false) : ∃ c s, e.text.toList = c :: s ∧ isWordChar c = true := by
  cases e with
  | num n =>
    obtain ⟨c, s, h, hc⟩ := (hR.isWord n).head []
    rw [List.append_nil] at h
    exact ⟨c, s, h, hc⟩
  | var v =>
    obtain ⟨c, s, h, hc⟩ := (hvs.isIdentifier v (he (List.mem_singleton_self v))).isWord.head []
    rw [List.append_nil] at h
    exact ⟨c, s, h, hc⟩
  | add l r => cases hsum
  | mul l r => cases hmul
  | call f args =>
    rw [toList_text_call]
    exact (isWord_name f).head _

theorem head_text {e : Expr α} (he : e.occurrences ⊆ vs) :
    ∃ c s, e.text.toList = c :: s ∧ (isWordChar c = true ∨ c = '(') := by
  induction e with
  | add l r ihl _ =>
    rw [occurrences_add] at he
    obtain ⟨c, s, h, hc⟩ := ihl (List.append_subset.mp he).1
    simp only [text, String.toList_append, h, List.append_assoc]
    exact ⟨c, _, rfl, hc⟩
  | mul l r ihl _ =>
    rw [occurrences_mul] at he
    obtain ⟨c, s, h, hc⟩ := ihl (List.append_subset.mp he).1
    simp only [text, String.toList_append, List.append_assoc]
    cases hparens : l.needsParens with
    | true =>
      have hopen := toList_operandText_true l
      rw [operandText] at hopen
      rw [hopen]
      exact ⟨'(', _, rfl, .inr rfl⟩
    | false =>
      rw [parenthesize, if_neg Bool.false_ne_true, h]
      exact ⟨c, _, rfl, hc⟩
  | _ =>
    obtain ⟨c, s, h, hc⟩ := head_of_atom hR hvs he rfl rfl
    exact ⟨c, s, h, .inl hc⟩

end Legible

/-! ### Trees told apart -/

/-- The text of the tree tells it from every other sum, wherever a sum can end. -/
def ReadAsSum (R : α → α → Prop) (vs : List Var) (e : Expr α) : Prop :=
  ∀ d : Expr α, d.occurrences ⊆ vs → Splits EndsSum (Regrouped R e d) e.text.toList d.text.toList

def ReadAsTerm (R : α → α → Prop) (vs : List Var) (t : Expr α) : Prop :=
  ∀ d : Expr α, d.occurrences ⊆ vs → d.isSum = false →
    Splits EndsTerm (Regrouped R t d) t.text.toList d.text.toList

def ReadAsFactor (R : α → α → Prop) (vs : List Var) (o : Bool × Expr α) : Prop :=
  ∀ o' : Bool × Expr α, o'.2.occurrences ⊆ vs → o'.2.isMul = false → (o'.2.isSum = true → o'.1 = true) →
    Splits EndsFactor (Regrouped R o.2 o'.2) (operandText o).toList (operandText o').toList

/-- The word of a leaf and the name of a function end differently. -/
theorem splits_word_call {P : Prop} {w : List Char} (hw : IsWord w) (f : Func) (args : List (Expr α)) :
    Splits EndsFactor P w (call f args).text.toList := by
  intro s t hs _ heq
  rw [toList_text_call, List.append_assoc] at heq
  obtain ⟨_, rfl⟩ := splits_word hw.2 (isWord_name f).2 s _ hs.endsWord (endsWord_paren _) heq
  exact absurd (hs.head '(' rfl) (by decide)

theorem ReadAsTerm.of_operands {t : Expr α} (h : ∀ o ∈ t.operands, ReadAsFactor R vs o) :
    ReadAsTerm R vs t := by
  intro d hd hsum
  have hjoin : Splits EndsTerm (List.Forall₂ (fun o o' => Regrouped R o.2 o'.2) t.operands d.operands)
      (" * ".toList.intercalate (t.operands.map fun o => (operandText o).toList))
      (" * ".toList.intercalate (d.operands.map fun o => (operandText o).toList)) := by
    apply Splits.intercalate (fun _ => EndsTerm.not_times) (operands_ne_nil t) (operands_ne_nil d)
    intro o ho o' ho'
    obtain ⟨hmul, hsubset, hparens⟩ := of_mem_operands hsum ho'
    exact h o ho o' (List.Subset.trans hsubset hd) hmul hparens
  rw [intercalate_operands, intercalate_operands] at hjoin
  refine hjoin.imp (fun _ hs => hs) ?_
  intro hoperands
  exact Regrouped.regroups_mul.related_of_factors (forall₂_factors hoperands)

theorem ReadAsSum.of_terms {e : Expr α} (h : ∀ t ∈ e.terms, ReadAsTerm R vs t) : ReadAsSum R vs e := by
  intro d hd
  have hjoin : Splits EndsSum (List.Forall₂ (Regrouped R) e.terms d.terms)
      (" + ".toList.intercalate (e.terms.map fun t => t.text.toList))
      (" + ".toList.intercalate (d.terms.map fun t => t.text.toList)) := by
    apply Splits.intercalate (fun _ => EndsSum.not_plus) (terms_ne_nil e) (terms_ne_nil d)
    intro t ht d' hd'
    obtain ⟨hsum, hsubset⟩ := of_mem_terms hd'
    exact h t ht d' (List.Subset.trans hsubset hd) hsum
  rw [intercalate_terms, intercalate_terms] at hjoin
  exact hjoin.imp (fun _ hs => hs) Regrouped.regroups_add.related_of_terms

section Legible

variable (hR : LegibleNumbers R) (hvs : NamedApart vs)

include hR hvs

theorem ReadAsFactor.parens {e : Expr α} (h : ReadAsSum R vs e) : ReadAsFactor R vs (true, e) := by
  rintro ⟨parens, d⟩ hd hmul hsum
  cases parens with
  | true =>
    rw [toList_operandText_true, toList_operandText_true]
    refine ((h d hd).append_right ?_).append_left ['(']
    intro s c hc
    obtain rfl := Option.some.inj hc
    exact .inr rfl
  | false =>
    have hatom : d.isSum = false := Bool.eq_false_iff.mpr fun h => Bool.false_ne_true (hsum h)
    obtain ⟨c, s, hhead, hc⟩ := head_of_atom hR hvs hd hatom hmul
    rw [toList_operandText_true]
    exact (splits_of_head_ne hhead rfl (ne_of_isWordChar hc (by decide))).symm

/-- A tree that is neither a sum nor a product is told from what stands in parentheses by its first character. -/
theorem ReadAsFactor.bare {e : Expr α} (he : e.occurrences ⊆ vs) (hsum : e.isSum = false)
    (hmul : e.isMul = false)
    (h : ∀ d : Expr α, d.occurrences ⊆ vs → d.isSum = false → d.isMul = false →
      Splits EndsFactor (Regrouped R e d) e.text.toList d.text.toList) :
    ReadAsFactor R vs (false, e) := by
  rintro ⟨parens, d⟩ hd hmul' hsum'
  cases parens with
  | true =>
    obtain ⟨c, s, hhead, hc⟩ := head_of_atom hR hvs he hsum hmul
    rw [toList_operandText_true]
    exact splits_of_head_ne hhead rfl (ne_of_isWordChar hc (by decide))
  | false =>
    have hatom : d.isSum = false := Bool.eq_false_iff.mpr fun h => Bool.false_ne_true (hsum' h)
    exact h d hd hatom hmul'

/-- The first argument of a call is not mistaken for the end of the call. -/
theorem head_intercalate {a : Expr α} {as : List (Expr α)} (ha : a.occurrences ⊆ vs) :
    ∃ c s, ", ".toList.intercalate ((a :: as).map fun a => a.text.toList) = c :: s ∧
      (isWordChar c = true ∨ c = '(') := by
  obtain ⟨c, s, hhead, hc⟩ := head_text hR hvs ha
  rw [List.map_cons, hhead, List.intercalate_cons_cons_left]
  exact ⟨c, _, rfl, hc⟩

theorem splits_args {as bs : List (Expr α)} (has : ∀ a ∈ as, a.occurrences ⊆ vs)
    (hbs : ∀ b ∈ bs, b.occurrences ⊆ vs) (h : ∀ a ∈ as, ReadAsSum R vs a) :
    Splits (fun s => s.head? = some ')') (List.Forall₂ (Regrouped R) as bs)
      (", ".toList.intercalate (as.map fun a => a.text.toList))
      (", ".toList.intercalate (bs.map fun b => b.text.toList)) := by
  have hnil {P : Prop} {c : Char} {x : List Char} (hc : isWordChar c = true ∨ c = '(') :
      Splits (fun s => s.head? = some ')') P [] (c :: x) := by
    rintro s t hs _ rfl
    obtain rfl := Option.some.inj hs
    exact absurd hc (by decide)
  cases as with
  | nil =>
    cases bs with
    | nil =>
      intro s t _ _ heq
      exact ⟨.nil, heq⟩
    | cons b bs =>
      obtain ⟨c, x, hhead, hc⟩ := head_intercalate hR hvs (hbs b List.mem_cons_self)
      rw [hhead]
      exact hnil hc
  | cons a as =>
    cases bs with
    | nil =>
      obtain ⟨c, x, hhead, hc⟩ := head_intercalate hR hvs (has a List.mem_cons_self)
      rw [hhead]
      exact (hnil hc).symm
    | cons b bs =>
      apply Splits.intercalate ?_ (List.cons_ne_nil a as) (List.cons_ne_nil b bs)
      · intro a' ha' b' hb'
        refine (h a' ha' b' (hbs b' hb')).imp ?_ id
        rintro s (hs | ⟨t, rfl⟩) c hc
        · rw [hs] at hc
          exact .inr (Option.some.inj hc).symm
        · exact .inl (Option.some.inj hc).symm
      · rintro s hs ⟨t, rfl⟩
        exact absurd (Option.some.inj hs) (by decide)

theorem splits_call {f g : Func} {as bs : List (Expr α)} (has : ∀ a ∈ as, a.occurrences ⊆ vs)
    (hbs : ∀ b ∈ bs, b.occurrences ⊆ vs) (h : ∀ a ∈ as, ReadAsSum R vs a) :
    Splits EndsFactor (Regrouped R (call f as) (call g bs)) (call f as).text.toList (call g bs).text.toList := by
  intro s t hs ht heq
  rw [toList_text_call, toList_text_call, List.append_assoc, List.append_assoc] at heq
  obtain ⟨hname, hrest⟩ := splits_word (isWord_name f).2 (isWord_name g).2 _ _ (endsWord_paren _) (endsWord_paren _) heq
  have hfg : f = g := by
    have hlookup := Func.ofName_name f
    rw [String.toList_inj.mp hname, Func.ofName_name] at hlookup
    exact (Except.ok.inj hlookup).symm
  subst hfg
  have hargs : Splits EndsFactor (List.Forall₂ (Regrouped R) as bs)
      (", ".toList.intercalate (as.map fun a => a.text.toList) ++ [')'])
      (", ".toList.intercalate (bs.map fun b => b.text.toList) ++ [')']) :=
    (splits_args hR hvs has hbs h).append_right fun _ => rfl
  obtain ⟨hforall, hst⟩ := hargs s t hs ht (List.cons.inj hrest).2
  exact ⟨.call f hforall, hst⟩

theorem readAsFactor_num (n : α) : ReadAsFactor R vs (false, num n) := by
  refine .bare hR hvs (List.nil_subset vs) rfl rfl ?_
  intro d hd hsum hmul
  cases d with
  | num m =>
    refine (splits_word (hR.isWord n).2 (hR.isWord m).2).imp (fun _ => EndsFactor.endsWord) ?_
    intro hword
    exact .num (hR.related n m (String.toList_inj.mp hword))
  | var v =>
    have hv := hd (List.mem_singleton_self v)
    have hname := hvs.isIdentifier v hv
    refine (splits_word (hR.isWord n).2 hname.isWord.2).imp (fun _ => EndsFactor.endsWord) ?_
    intro hword
    exact absurd (String.toList_inj.mp hword) (hR.ne_name n v.name hname (hvs.not_reserved v hv))
  | add l r => cases hsum
  | mul l r => cases hmul
  | call f args => exact splits_word_call (hR.isWord n) f args

theorem readAsFactor_var {v : Var} (hv : v ∈ vs) : ReadAsFactor R vs (false, var v) := by
  have hname := hvs.isIdentifier v hv
  refine .bare hR hvs (List.cons_subset.mpr ⟨hv, List.nil_subset vs⟩) rfl rfl ?_
  intro d hd hsum hmul
  cases d with
  | num m =>
    refine (splits_word hname.isWord.2 (hR.isWord m).2).imp (fun _ => EndsFactor.endsWord) ?_
    intro hword
    exact absurd (String.toList_inj.mp hword).symm (hR.ne_name m v.name hname (hvs.not_reserved v hv))
  | var w =>
    have hw := hd (List.mem_singleton_self w)
    refine (splits_word hname.isWord.2 (hvs.isIdentifier w hw).isWord.2).imp (fun _ => EndsFactor.endsWord) ?_
    intro hword
    rw [hvs.eq_of_name_eq hv hw (String.toList_inj.mp hword)]
    exact .refl _
  | add l r => cases hsum
  | mul l r => cases hmul
  | call f args => exact splits_word_call hname.isWord f args

theorem readAsFactor_call (f : Func) {args : List (Expr α)} (hargs : ∀ a ∈ args, a.occurrences ⊆ vs)
    (h : ∀ a ∈ args, ReadAsSum R vs a) : ReadAsFactor R vs (false, call f args) := by
  refine .bare hR hvs (occurrences_call_subset_iff.mpr hargs) rfl rfl ?_
  intro d hd hsum hmul
  cases d with
  | num m => exact (splits_word_call (hR.isWord m) f args).symm
  | var w => exact (splits_word_call (hvs.isIdentifier w (hd (List.mem_singleton_self w))).isWord f args).symm
  | add l r => cases hsum
  | mul l r => cases hmul
  | call g bs => exact splits_call hR hvs hargs (occurrences_call_subset_iff.mp hd) h

/-- What is told apart without parentheses, as a term, is so in parentheses too. -/
theorem ReadAsFactor.either {e : Expr α} (hterms : e.terms = [e]) (hoperands : e.operands = [(false, e)])
    (h : ReadAsFactor R vs (false, e)) :
    ReadAsTerm R vs e ∧ ReadAsFactor R vs (e.needsParens, e) := by
  have hterm : ReadAsTerm R vs e := by
    apply ReadAsTerm.of_operands
    rw [hoperands]
    intro o ho
    obtain rfl := List.mem_singleton.mp ho
    exact h
  refine ⟨hterm, ?_⟩
  cases e.needsParens with
  | false => exact h
  | true =>
    apply ReadAsFactor.parens hR hvs
    apply ReadAsSum.of_terms
    rw [hterms]
    intro t ht
    obtain rfl := List.mem_singleton.mp ht
    exact hterm

/-- The parts of a tree are told apart from all that can stand in their places. -/
theorem read_parts {e : Expr α} (he : e.occurrences ⊆ vs) :
    (∀ t ∈ e.terms, ReadAsTerm R vs t) ∧ ∀ u ∈ e.factors, ReadAsFactor R vs (u.needsParens, u) := by
  have hatom {e : Expr α} (hterms : e.terms = [e]) (hfactors : e.factors = [e])
      (hread : ReadAsTerm R vs e ∧ ReadAsFactor R vs (e.needsParens, e)) :
      (∀ t ∈ e.terms, ReadAsTerm R vs t) ∧ ∀ u ∈ e.factors, ReadAsFactor R vs (u.needsParens, u) := by
    rw [hterms, hfactors]
    simp only [List.mem_singleton, forall_eq]
    exact hread
  induction e with
  | num n => exact hatom rfl rfl ((readAsFactor_num hR hvs n).either hR hvs rfl rfl)
  | var v =>
    have hv := he (List.mem_singleton_self v)
    exact hatom rfl rfl ((readAsFactor_var hR hvs hv).either hR hvs rfl rfl)
  | add l r ihl ihr =>
    rw [occurrences_add] at he
    obtain ⟨hl, hr⟩ := List.append_subset.mp he
    have hterms : ∀ t ∈ (add l r).terms, ReadAsTerm R vs t := by
      rw [terms_add]
      exact List.forall_mem_append.mpr ⟨(ihl hl).1, (ihr hr).1⟩
    refine ⟨hterms, ?_⟩
    intro u hu
    obtain rfl := List.mem_singleton.mp hu
    exact .parens hR hvs (.of_terms hterms)
  | mul l r ihl ihr =>
    rw [occurrences_mul] at he
    obtain ⟨hl, hr⟩ := List.append_subset.mp he
    have hfactors : ∀ u ∈ (mul l r).factors, ReadAsFactor R vs (u.needsParens, u) := by
      rw [factors_mul]
      exact List.forall_mem_append.mpr ⟨(ihl hl).2, (ihr hr).2⟩
    refine ⟨?_, hfactors⟩
    intro t ht
    obtain rfl := List.mem_singleton.mp ht
    apply ReadAsTerm.of_operands
    intro o ho
    obtain ⟨u, hu, rfl⟩ := List.mem_map.mp ho
    exact hfactors u hu
  | call f args ih =>
    have hargs := occurrences_call_subset_iff.mp he
    have hread : ∀ a ∈ args, ReadAsSum R vs a := fun a ha => .of_terms (ih a ha (hargs a ha)).1
    exact hatom rfl rfl ((readAsFactor_call hR hvs f hargs hread).either hR hvs rfl rfl)

theorem regrouped_of_text_eq {a b : Expr α} (ha : a.occurrences ⊆ vs) (hb : b.occurrences ⊆ vs)
    (h : a.text = b.text) : Regrouped R a b := by
  have hread : ReadAsSum R vs a := .of_terms (read_parts hR hvs ha).1
  have hnil : EndsSum [] := by
    intro c hc
    cases hc
  exact (hread b hb [] [] hnil hnil (by rw [h])).1

end Legible

end Expr

end Univariate
