import EcmaTree.Proofs.Grammar.Loosening.Basic
import EcmaTree.Proofs.Token.Written
import EcmaTree.Proofs.Tree.Spans

/-!
# Words that are read as an expression

A phrase is a list of words that a rule reads as a given expression, wherever it stands: the words
are left behind, the scope is as it was, and the expression is the given one up to its places. The
rules for expressions form a ladder. Each rung says which tokens may come behind the phrase, and
what is read on one rung is read on every rung below it: a primary expression is an operand, an
operand is a chain of operators, a chain is an expression.
-/

namespace EcmaTree

open EcmaTree.Parser EcmaTree.Grammar EcmaTree.Reading

/-- The kind of the first word, or of the end of input. -/
def kindAhead : List Word → TokenKind
  | [] => .eof
  | w :: _ => w.kind

/-- The state stands before the words, none of which is an arrow. -/
structure ParseState.Before (σ : Scope) (words : List Word) (s : ParseState) : Prop where
  shows : s.stream.Shows words
  plain : ∀ w ∈ words, w.kind ≠ .arrow
  scope : s.scope = σ

namespace ParseState.Before

variable {σ : Scope} {s t : ParseState} {w : Word} {words : List Word}

theorem kind_eq (h : s.Before σ words) : s.kind = kindAhead words := by
  cases h.shows with
  | done kind => exact kind
  | word kind => exact kind

theorem value_eq (h : s.Before σ (w :: words)) : s.stream.token.value = w.value := by
  cases h.shows with
  | word _ value => exact value

theorem text_eq (h : s.Before σ (w :: words)) : s.stream.token.text = w.text := by
  cases h.shows with
  | word _ _ text => exact text

theorem not_afterLineBreak (h : s.Before σ (w :: words)) (hw : w.kind = .incDec) :
    s.stream.afterLineBreak = false := by
  cases h.shows with
  | word _ _ _ line => exact line hw

theorem advance (h : s.Before σ (w :: words)) :
    ∃ t, Parser.advance s = .ok () t ∧ t.Before σ words := by
  cases h.shows with
  | word _ _ _ _ step more =>
    exact ⟨_, advance_eq_ok.mpr ⟨_, step.2, rfl⟩, more,
      fun w hw => h.plain w (List.mem_cons_of_mem _ hw), h.scope⟩

theorem takes (h : s.Before σ (w :: words)) : ∃ t, Takes w.kind s t ∧ t.Before σ words := by
  obtain ⟨t, ha, ht⟩ := h.advance
  exact ⟨t, ⟨h.kind_eq, ha⟩, ht⟩

theorem markArrow (h : s.Before σ words) : s.markArrow.Before σ words :=
  ⟨s.stream_markArrow ▸ h.shows, h.plain, s.scope_markArrow ▸ h.scope⟩

/-- No arrow comes, however far one reads. -/
theorem not_arrow_of_follows (h : s.Before σ words) (hf : s.Follows t) : t.kind ≠ .arrow := by
  obtain ⟨left, hleft, hshows⟩ := TokenStream.exists_shows_of_follows h.shows hf
  cases hshows with
  | done kind =>
    rw [ParseState.kind, kind]
    nofun
  | word kind =>
    rw [ParseState.kind, kind]
    exact h.plain _ (hleft.subset (List.mem_cons_self ..))

theorem kind_ne_arrow (h : s.Before σ words) : s.kind ≠ .arrow :=
  h.not_arrow_of_follows .refl

end ParseState.Before

namespace TokenKind

/-- A token that goes on with an operand. -/
def isSuffix : TokenKind → Bool
  | .dot | .bracketL | .parenL | .incDec => true
  | _ => false

theorem ne_of_not_isSuffix {k suffix : TokenKind} (h : k.isSuffix = false)
    (hs : suffix.isSuffix = true) : k ≠ suffix := by
  rintro rfl
  cases h.symm.trans hs

/-- No suffix, and no binary operator that binds tighter than `floor`. -/
structure StopsAt (noIn : Bool) (floor : Nat) (k : TokenKind) : Prop where
  not_suffix : k.isSuffix = false
  loose : ∀ strength, k.binaryStrength? = some strength →
    strength ≤ floor ∨ (noIn = true ∧ k = .keyword .in)

/-- A token behind an expression without a comma. -/
structure Closes (noIn : Bool) (k : TokenKind) : Prop extends k.StopsAt noIn 0 where
  not_question : k ≠ .question
  not_assignment : k.isAssignment = false

theorem stopsAt_of_none {noIn : Bool} {floor : Nat} {k : TokenKind} (hs : k.isSuffix = false)
    (hb : k.binaryStrength? = none) : k.StopsAt noIn floor :=
  ⟨hs, fun _ h => absurd (hb.symm.trans h) (Option.some_ne_none _).symm⟩

theorem closes_of_none {noIn : Bool} {k : TokenKind} (hs : k.isSuffix = false)
    (hb : k.binaryStrength? = none) (hquestion : (k == .question) = false)
    (ha : k.isAssignment = false) : k.Closes noIn :=
  ⟨stopsAt_of_none hs hb, beq_eq_false_iff_ne.mp hquestion, ha⟩

theorem StopsAt.mono {noIn : Bool} {m n : Nat} {k : TokenKind} (h : k.StopsAt noIn m)
    (hle : m ≤ n) : k.StopsAt noIn n :=
  ⟨h.not_suffix, fun strength hs => (h.loose strength hs).imp_left (Nat.le_trans · hle)⟩

end TokenKind

/-- An arrow function, which no operator may follow. -/
def Expression.isArrow : Expression → Bool
  | .arrow _ _ _ => true
  | _ => false

theorem Expression.isArrow_erase (e : Expression) : Expression.isArrow e.erase = e.isArrow := by
  cases e <;> rfl

namespace Grammar

theorem isArrowAt_of_erase {e e' : Expression} (h : e'.erase = e.erase) (he : e.isArrow = false)
    (start : Place) : isArrowAt start e' = false := by
  have harrow : e'.isArrow = false := by rw [← Expression.isArrow_erase, h, e.isArrow_erase, he]
  cases e' <;> first | rfl | cases harrow

variable (d : Descent) (σ : Scope)

/-- The words are a primary expression. -/
def ReadsPrimary (words : List Word) (e : Expression) : Prop :=
  ∀ s rest, s.Before σ (words ++ rest) →
    ∃ e' t, d (.primary none) s = .ok (e', none) t ∧ e'.erase = e.erase ∧
      t.Before σ rest

/-- The words are a primary expression with suffixes: behind the primary expression the suffixes
are read that make it the given one. -/
def ReadsSuffixed (noCalls : Bool) (words : List Word) (e : Expression) : Prop :=
  ∀ s rest start, s.Before σ (words ++ rest) →
    ∃ first u e' t, d (.primary none) s = .ok (first, none) u ∧
      (∀ place, isArrowAt place first = false) ∧ e'.erase = e.erase ∧ t.Before σ rest ∧
      ∀ r v, d (.suffixes e' start noCalls) t = .ok r v →
        d (.suffixes first start noCalls) u = .ok r v

/-- The words are an operand. -/
def ReadsOperand (words : List Word) (e : Expression) : Prop :=
  ∀ s rest, s.Before σ (words ++ rest) → (kindAhead rest).isSuffix = false →
    ∃ e' t, d (.unary none) s = .ok (e', none) t ∧ e'.erase = e.erase ∧
      t.Before σ rest

/-- The strength of an operator behind a chain whose operators have the strength `level` or more:
at the top it has to be less, since the exponent operator groups to the right. -/
def ceiling (level : Nat) : Nat :=
  if level ≤ 10 then level else level - 1

/-- The words are a chain of binary operators of the strength `level` or more: behind its first
operand the operators are read that make it the given expression. -/
def ReadsOperators (noIn : Bool) (level : Nat) (words : List Word) (e : Expression) : Prop :=
  ∀ s rest start floor, s.Before σ (words ++ rest) → floor < level →
    (kindAhead rest).StopsAt noIn (ceiling level) →
    ∃ first u e' t, d (.unary none) s = .ok (first, none) u ∧
      (∀ place, isArrowAt place first = false) ∧ e'.erase = e.erase ∧ t.Before σ rest ∧
      ∀ r v, d (.operators e' start floor noIn) t = .ok r v →
        d (.operators first start floor noIn) u = .ok r v

/-- The words are an expression without a comma. -/
def ReadsValue (noIn : Bool) (words : List Word) (e : Expression) : Prop :=
  ∀ s rest owned, s.Before σ (words ++ rest) → (kindAhead rest).Closes noIn →
    ∃ e' t, d (.assignment noIn owned none) s = .ok (e', none) t ∧
      e'.erase = e.erase ∧ t.Before σ rest

variable {d σ} {options : ParseOptions} (hd : Answers options d) {words : List Word}
  {e : Expression} {noIn : Bool} {s t : ParseState}

section Stops

include hd

/-! ### Where the loops of the grammar stop -/

theorem suffixes_of_stop {start : Place} {noCalls : Bool} (hdot : s.kind ≠ .dot)
    (hbracket : s.kind ≠ .bracketL) (hparen : noCalls = false → s.kind ≠ .parenL) :
    d (.suffixes e start noCalls) s = .ok e s := by
  rw [← hd.rule_eq (.suffixes e start noCalls) s trivial]
  cases noCalls with
  | false => simp [rule, suffixes, hdot, hbracket, hparen rfl]
  | true => simp [rule, suffixes, hdot, hbracket]

theorem operators_of_stop {floor : Nat} (hk : s.kind.StopsAt noIn floor) {start : Place} :
    d (.operators e start floor noIn) s = .ok e s := by
  rw [← hd.rule_eq (.operators e start floor noIn) s trivial]
  change operators _ e start floor noIn s = _
  cases hstrength : s.kind.binaryStrength? with
  | none => simp [operators, hstrength]
  | some strength => simp [operators, hstrength, hk.loose strength hstrength]

end Stops

section Rungs

/-! ### From rung to rung -/

theorem readsSuffixed_of_primary (h : ReadsPrimary d σ words e) (he : e.isArrow = false)
    (noCalls : Bool) : ReadsSuffixed d σ noCalls words e := by
  intro s rest start hs
  obtain ⟨e', t, hprimary, hsame, ht⟩ := h s rest hs
  exact ⟨e', t, e', t, hprimary, isArrowAt_of_erase hsame he, hsame, ht, fun _ _ h => h⟩

theorem readsOperators_of_operand (h : ReadsOperand d σ words e) (he : e.isArrow = false)
    (noIn : Bool) (level : Nat) : ReadsOperators d σ noIn level words e := by
  intro s rest start floor hs _ hk
  obtain ⟨e', t, hunary, hsame, ht⟩ := h s rest hs hk.not_suffix
  exact ⟨e', t, e', t, hunary, isArrowAt_of_erase hsame he, hsame, ht, fun _ _ h => h⟩

theorem ceiling_mono {m n : Nat} (h : m ≤ n) : ceiling m ≤ ceiling n := by
  unfold ceiling
  split <;> split <;> omega

theorem ReadsOperators.of_le {m n : Nat} (h : ReadsOperators d σ noIn n words e)
    (hle : m ≤ n) : ReadsOperators d σ noIn m words e :=
  fun s rest start floor hs hfloor hk =>
    h s rest start floor hs (Nat.lt_of_lt_of_le hfloor hle) (hk.mono (ceiling_mono hle))

include hd

/-- A primary expression begins with no operator. -/
theorem not_isUnary_of_primary {e' : Expression} {pending after : Pending}
    (h : d (.primary pending) s = .ok (e', after) t) : s.kind.isUnary = false := by
  rw [← hd.rule_eq (.primary pending) s trivial] at h
  have hk : ∀ {k : TokenKind}, s.kind = k → k.isUnary = false → s.kind.isUnary = false := by
    rintro k rfl h
    exact h
  cases of_primary h with
  | name kind | parenthesis kind | template kind | new kind => exact hk kind rfl
  | this word => exact hk word.1 rfl
  | array opening | object opening => exact hk opening.1 rfl
  | function word => exact hk word.1 rfl
  | literal literal_ok =>
    obtain ⟨value, hvalue, -⟩ := of_literal literal_ok
    unfold literalValue? at hvalue
    split at hvalue
    all_goals first | cases hvalue; done | exact hk ‹s.stream.token.kind = _› rfl

theorem readsOperand_of_suffixed (h : ReadsSuffixed d σ false words e) :
    ReadsOperand d σ words e := by
  intro s rest hs hk
  obtain ⟨first, u, e', t, hprimary, harrow, hsame, ht, hloop⟩ := h s rest s.place hs
  rw [← ht.kind_eq] at hk
  have hne : ∀ {suffix : TokenKind}, suffix.isSuffix = true → t.kind ≠ suffix :=
    TokenKind.ne_of_not_isSuffix hk
  have hleft : leftHandSide d none s = .ok (e', none) t := by
    have hsuffixes := hloop e' t (suffixes_of_stop hd (hne rfl) (hne rfl) fun _ => hne rfl)
    simp [leftHandSide, hprimary, endsOperand, harrow, hsuffixes]
  have htrailing : t.kind.isTrailing = false := beq_eq_false_iff_ne.mpr (hne rfl)
  refine ⟨e', t, ?_, hsame, ht⟩
  rw [← hd.rule_eq (.unary none) s trivial]
  simp [rule, unary, not_isUnary_of_primary hd hprimary, hleft, trailingUpdate, htrailing]

omit hd in
theorem markArrow_cases (s : ParseState) :
    ((s.kind = .parenL ∨ s.kind = .name) ∧
        s.markArrow = { s with arrowStart := some s.place.offset }) ∨
      ((¬s.kind = .parenL ∧ ¬s.kind = .name) ∧ s.markArrow = s) := by
  unfold ParseState.markArrow
  split
  · exact .inl ⟨‹_›, rfl⟩
  · exact .inr ⟨not_or.mp ‹_›, rfl⟩

/-- An expression that no assignment operator follows. -/
theorem assignment_of_conditional {owned : Bool} (hg : s.scope.inGenerator = false)
    (h : conditional d noIn none s.markArrow = .ok (e, none) t)
    (hk : t.kind.isAssignment = false) :
    d (.assignment noIn owned none) s = .ok (e, none) t := by
  rw [← hd.rule_eq (.assignment noIn owned none) s trivial]
  change assignment d noIn owned none s = _
  simp only [assignment, ite_bind, when_bind]
  simp [hg]
  refine ⟨s.markArrow, markArrow_cases s, e, none, t, h, .inr ⟨hk, ?_, rfl, fun _ => rfl⟩⟩
  cases owned
  · exact .inr ⟨rfl, rfl⟩
  · exact .inl ⟨rfl, rfl, rfl⟩

/-- An assignment to a target of one of the two kinds that all operators take. -/
theorem assignment_of_target {owned : Bool} (hg : s.scope.inGenerator = false) {u v : ParseState}
    {left value : Expression} {target : Pattern} {operator : AssignmentOperator}
    (h : conditional d noIn none s.markArrow = .ok (left, none) t)
    (hk : t.kind.isAssignment = true)
    (hoperator : operatorOf AssignmentOperator.ofSpelling? t.stream.token = some operator)
    (htarget : left.toPattern false = .ok target) (hsimple : IsSimple left)
    (hlegal : (target.check t.scope.strict false none).1 = .ok ())
    (ha : advance t = .ok () u)
    (hvalue : d (.assignment noIn true none) u = .ok (value, none) v) :
    d (.assignment noIn owned none) s =
      .ok (.assignment (v.spanFrom s.place) operator target value, none) v := by
  rw [← hd.rule_eq (.assignment noIn owned none) s trivial]
  change assignment d noIn owned none s = _
  have hsimpleTarget : simpleTarget left t = .ok target t := by
    cases left <;> first | exact hsimple.elim | simp [simpleTarget, htarget]
  simp only [assignment, ite_bind, when_bind]
  simp [hg]
  refine ⟨s.markArrow, markArrow_cases s, left, none, t, h, .inl ⟨hk, ?_⟩⟩
  rw [hoperator]
  simp [Descent.value]
  refine ⟨t, ?_, hlegal, u, ha, none, hvalue⟩
  by_cases hassign : operator = .assign
  · exact .inl ⟨hassign, htarget, rfl⟩
  · exact .inr ⟨hassign, hsimpleTarget⟩

theorem readsValue_of_operators (hσ : σ.inGenerator = false)
    (h : ReadsOperators d σ noIn 1 words e) : ReadsValue d σ noIn words e := by
  intro s rest owned hs hk
  obtain ⟨first, u, e', t, hunary, harrow, hsame, ht, hloop⟩ :=
    h s.markArrow rest s.markArrow.place 0 hs.markArrow Nat.one_pos
      (hk.toStopsAt.mono (Nat.zero_le _))
  rw [← ht.kind_eq] at hk
  have hbinary : binary d noIn none s.markArrow = .ok (e', none) t := by
    simp [binary, hunary, endsOperand, harrow,
      hloop e' t (operators_of_stop hd hk.toStopsAt)]
  have hconditional : conditional d noIn none s.markArrow = .ok (e', none) t := by
    simp [conditional, hbinary, hk.not_question]
  exact ⟨e', t, assignment_of_conditional hd (hs.scope ▸ hσ) hconditional hk.not_assignment,
    hsame, ht⟩

end Rungs

end Grammar

end EcmaTree
