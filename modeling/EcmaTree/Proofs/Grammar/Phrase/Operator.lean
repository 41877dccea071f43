import EcmaTree.Proofs.Grammar.Phrase.Basic
import EcmaTree.Proofs.Token.Operators

/-!
# Phrases with operators

The phrases that operators make of phrases. A binary operator joins a
chain that binds as tightly as the operator itself with one that binds tighter, and the exponent
operator the other way round; the strength of the whole is that of the operator.
-/

namespace EcmaTree

open EcmaTree.Parser EcmaTree.Grammar EcmaTree.Reading

namespace InfixOperator

/-- The expression that the operator makes of its operands. -/
def join (span : Span) (left right : Expression) : InfixOperator → Expression
  | logical operator => .logical span operator left right
  | binary operator => .binary span operator left right

theorem isSuffix_kind (operator : InfixOperator) : operator.kind.isSuffix = false := by
  cases operator with
  | logical operator => cases operator <;> rfl
  | binary operator => cases operator <;> rfl

/-- The word of an operator is read as this operator. -/
theorem operatorOf_word {operator : InfixOperator} {t : Token}
    (h : t.value = operator.word.value) :
    (∃ o, operator = .logical o ∧ operatorOf LogicalOperator.ofSpelling? t = some o) ∨
      ∃ o, operator = .binary o ∧ operatorOf LogicalOperator.ofSpelling? t = none ∧
        operatorOf BinaryOperator.ofSpelling? t = some o := by
  unfold operatorOf
  rw [h]
  cases operator with
  | logical operator => exact .inl ⟨operator, rfl, by cases operator <;> rfl⟩
  | binary operator => exact .inr ⟨operator, rfl, by cases operator <;> exact ⟨rfl, rfl⟩⟩

theorem erase_join (operator : InfixOperator) (span : Span) (left right : Expression) :
    (operator.join span left right).erase = operator.join default left.erase right.erase := by
  cases operator <;> rfl

theorem isArrow_join (operator : InfixOperator) (span : Span) (left right : Expression) :
    (operator.join span left right).isArrow = false := by
  cases operator <;> rfl

end InfixOperator

namespace Grammar

variable {d : Descent} {σ : Scope} {options : ParseOptions} (hd : Answers options d)
  {e left right : Expression} {words leftWords rightWords : List Word} {noIn : Bool}

include hd

/-- An operator that binds tight enough joins what is on its left with the chain that binds
tighter than itself. -/
theorem operators_of_operator {s s₁ s₂ s₃ u : ParseState} {start : Place} {floor : Nat}
    {operand r : Expression} {operator : InfixOperator} (hkind : s.kind = operator.kind)
    (hvalue : s.stream.token.value = operator.word.value) (htight : floor < operator.strength)
    (hin : noIn = true → operator.kind ≠ .keyword .in) (ha : advance s = .ok () s₁)
    (hoperand : d (.unary none) s₁ = .ok (operand, none) s₂)
    (hright : d (.operators operand s₁.place
      (if operator.kind.isRightAssociative then operator.strength - 1 else operator.strength)
        noIn) s₂ = .ok right s₃)
    (hmore : d (.operators (operator.join (s₃.spanFrom start) left right) start floor noIn) s₃ =
      .ok r u) :
    d (.operators left start floor noIn) s = .ok r u := by
  rw [← hd.rule_eq (.operators left start floor noIn) s trivial]
  have hstrength : s.kind.binaryStrength? = some operator.strength := by
    rw [hkind, operator.binaryStrength?_kind]
  have hgoesOn : ¬(operator.strength ≤ floor ∨ noIn = true ∧ s.kind = .keyword .in) := by
    rintro (hle | ⟨hno, hk⟩)
    · exact Nat.not_le_of_lt htight hle
    · exact hin hno (hkind ▸ hk)
  simp [rule, operators, hstrength, hgoesOn, Descent.operand]
  refine ⟨s₁, ha, operand, s₂, hoperand, right, s₃, ?_, ?_⟩
  · rwa [show s.stream.token.kind = operator.kind from hkind]
  rcases InfixOperator.operatorOf_word hvalue with ⟨o, rfl, ho⟩ | ⟨o, rfl, hnone, ho⟩
  · rw [ho]
    exact hmore
  · rw [hnone, ho]
    exact hmore

/-- Two chains joined by an operator are a chain of the operator's strength. -/
theorem readsOperators_join {operator : InfixOperator}
    (hleft : ReadsOperators d σ noIn operator.leftLevel leftWords left)
    (hright : ReadsOperators d σ noIn operator.rightLevel rightWords right)
    (hin : noIn = true → operator.kind ≠ .keyword .in) (span : Span) :
    ReadsOperators d σ noIn operator.strength (leftWords ++ operator.word :: rightWords)
      (operator.join span left right) := by
  intro s rest start floor hs hfloor hk
  rw [List.append_assoc, List.cons_append] at hs
  have hlevels : operator.strength ≤ operator.leftLevel ∧
      operator.strength ≤ ceiling operator.leftLevel ∧
      ceiling operator.strength ≤ ceiling operator.rightLevel ∧
      ceiling operator.strength =
        (if operator.kind.isRightAssociative then operator.strength - 1 else operator.strength) ∧
      ceiling operator.strength < operator.rightLevel := by
    unfold InfixOperator.leftLevel InfixOperator.rightLevel ceiling
    rcases operator.cases_strength with ⟨hassoc, hpos, hle⟩ | ⟨hassoc, heq⟩
    · simp only [hassoc, hle, if_true, if_false, Bool.false_eq_true, true_and]
      split <;> omega
    · simp [hassoc, heq]
  obtain ⟨hle, hceiling, hmono, hbelow, hlt⟩ := hlevels
  have hstop : (kindAhead (operator.word :: (rightWords ++ rest))).StopsAt noIn
      (ceiling operator.leftLevel) := by
    refine ⟨(congrArg TokenKind.isSuffix operator.kind_word).trans operator.isSuffix_kind,
      fun strength hstrength => ?_⟩
    rw [kindAhead, operator.kind_word, operator.binaryStrength?_kind] at hstrength
    cases hstrength
    exact .inl hceiling
  obtain ⟨first, u, left', t, hfirst, harrow, hsame, ht, hloop⟩ :=
    hleft s _ start floor hs (Nat.lt_of_lt_of_le hfloor hle) hstop
  obtain ⟨t₁, ha, ht₁⟩ := ht.advance
  obtain ⟨operand, u₂, right', t₂, hoperand, -, hsame', ht₂, hloop'⟩ :=
    hright t₁ rest t₁.place (ceiling operator.strength) ht₁ hlt (hk.mono hmono)
  have hrest : d (.operators operand t₁.place (ceiling operator.strength) noIn) u₂ =
      .ok right' t₂ :=
    hloop' right' t₂ (operators_of_stop hd (ht₂.kind_eq ▸ hk))
  refine ⟨first, u, operator.join (t₂.spanFrom start) left' right', t₂, hfirst, harrow, ?_, ht₂,
    fun r v hmore => hloop r v ?_⟩
  · rw [operator.erase_join, operator.erase_join, hsame, hsame']
  · exact operators_of_operator hd (ht.kind_eq.trans operator.kind_word) ht.value_eq hfloor hin ha
      hoperand (hbelow ▸ hrest) hmore

omit hd in
theorem isSimple_of_erase {e' : Expression} (h : e'.erase = e.erase) (hs : IsSimple e) :
    IsSimple e' := by
  cases e <;> first | exact hs.elim | (cases e' <;> first | exact trivial | cases h)

omit hd in
/-- In sloppy code every name and every member may be changed. -/
theorem checkUpdated_of_simple {s : ParseState} (h : IsSimple e)
    (hstrict : s.scope.strict = false) : checkUpdated e s = .ok () s := by
  cases e with
  | identifier id =>
    simp [checkUpdated, Pattern.check, Node.checkTargets, Check.name, Check.gather, hstrict]
  | member => simp [checkUpdated]
  | _ => exact h.elim

/-- An operator before an operand. -/
theorem readsOperand_unary (hσ : σ.strict = false) (operator : UnaryOperator) (span : Span)
    (h : ReadsOperand d σ words e) :
    ReadsOperand d σ (operator.word :: words) (.unary span operator e) := by
  intro s rest hs hk
  have hkind : operator.word.kind.isUnary = true ∧ operator.word.kind ≠ .incDec := by
    cases operator <;> decide
  have hoperator : operatorOf UnaryOperator.ofSpelling? s.stream.token = some operator := by
    unfold operatorOf
    rw [hs.value_eq]
    cases operator <;> rfl
  obtain ⟨t, ht, hbefore⟩ := hs.takes
  obtain ⟨e', u, hoperand, hsame, hu⟩ := h t rest hbefore hk
  have hunary : unaryExpression d s = .ok (.unary (u.spanFrom s.place) operator e') u := by
    have hincDec : s.stream.token.kind ≠ .incDec := fun h => hkind.2 (ht.1.symm.trans h)
    simp [unaryExpression, ht.2, Descent.operand, hoperand, hincDec, hoperator]
    rw [hu.scope, hσ]
    cases operator <;> simp
  refine ⟨.unary (u.spanFrom s.place) operator e', u, ?_, ?_, hu⟩
  · rw [← hd.rule_eq (.unary none) s trivial]
    simp [rule, unary, ht.1, hkind.1, hunary]
  · simp only [Node.erase, hsame]

omit hd in
theorem isUpdate_word (operator : UpdateOperator) {t : Token} (h : t.value = operator.word.value) :
    operatorOf UpdateOperator.ofSpelling? t = some operator := by
  unfold operatorOf
  rw [h]
  cases operator <;> rfl

/-- `++` or `--` before a name or a member. -/
theorem readsOperand_update (hσ : σ.strict = false) (operator : UpdateOperator) (span : Span)
    (hsimple : IsSimple e) (h : ReadsOperand d σ words e) :
    ReadsOperand d σ (operator.word :: words) (.update span operator true e) := by
  intro s rest hs hk
  have hoperator := isUpdate_word operator hs.value_eq
  obtain ⟨t, ht, hbefore⟩ := hs.takes
  obtain ⟨e', u, hoperand, hsame, hu⟩ := h t rest hbefore hk
  have hunary : unaryExpression d s = .ok (.update (u.spanFrom s.place) operator true e') u := by
    have hincDec : s.stream.token.kind = .incDec := ht.1
    have hchecked := checkUpdated_of_simple (isSimple_of_erase hsame hsimple) (hu.scope ▸ hσ)
    simp [unaryExpression, ht.2, Descent.operand, hoperand, hincDec, hchecked, hoperator]
  refine ⟨.update (u.spanFrom s.place) operator true e', u, ?_, ?_, hu⟩
  · rw [← hd.rule_eq (.unary none) s trivial]
    have hkind : s.kind.isUnary = true := by
      rw [ht.1]
      rfl
    simp [rule, unary, hkind, hunary]
  · simp only [Node.erase, hsame]

/-- `++` or `--` behind a name or a member, on the same line. -/
theorem readsOperand_trailing (hσ : σ.strict = false) (operator : UpdateOperator) (span : Span)
    (hsimple : IsSimple e) (h : ReadsSuffixed d σ false words e) :
    ReadsOperand d σ (words ++ [operator.word]) (.update span operator false e) := by
  intro s rest hs hk
  rw [List.append_assoc, List.singleton_append] at hs
  obtain ⟨first, u, e', t, hprimary, harrow, hsame, ht, hloop⟩ := h s _ s.place hs
  have hoperator := isUpdate_word operator ht.value_eq
  have hkind : t.kind = .incDec := ht.kind_eq
  have hline : t.endsStatement = false := by
    unfold ParseState.endsStatement
    rw [hkind, ht.not_afterLineBreak rfl]
    rfl
  obtain ⟨v, ha, hv⟩ := ht.advance
  have hnext : v.kind ≠ .incDec := by
    rw [← hv.kind_eq] at hk
    exact TokenKind.ne_of_not_isSuffix hk rfl
  have hleft : leftHandSide d none s = .ok (e', none) t := by
    have hstop : d (.suffixes e' s.place false) t = .ok e' t :=
      suffixes_of_stop hd (by simp [hkind]) (by simp [hkind]) (by simp [hkind])
    simp [leftHandSide, hprimary, endsOperand, harrow, hloop e' t hstop]
  have hchecked := checkUpdated_of_simple (isSimple_of_erase hsame hsimple) (ht.scope ▸ hσ)
  have htrailing : trailingUpdate s.place e' t =
      .ok (.update (v.spanFrom s.place) operator false e') v := by
    simp [trailingUpdate, hkind, TokenKind.isTrailing, hline, hchecked, hoperator, ha]
    exact .inr fun h => absurd h hnext
  refine ⟨.update (v.spanFrom s.place) operator false e', v, ?_, ?_, hv⟩
  · rw [← hd.rule_eq (.unary none) s trivial]
    simp [rule, unary, not_isUnary_of_primary hd hprimary, hleft, htrailing]
  · simp only [Node.erase, hsame]

/-- A test with a question mark behind it, and what it chooses between. -/
theorem readsValue_conditional (hσ : σ.inGenerator = false) {test consequent alternate : Expression}
    {testWords consequentWords alternateWords : List Word} (span : Span)
    (hplain : test.isArrow = false) (htest : ReadsOperators d σ noIn 1 testWords test)
    (hconsequent : ReadsValue d σ false consequentWords consequent)
    (halternate : ReadsValue d σ noIn alternateWords alternate) :
    ReadsValue d σ noIn
      (testWords ++ .question :: (consequentWords ++ .colon :: alternateWords))
      (.conditional span test consequent alternate) := by
  intro s rest owned hs hk
  rw [List.append_assoc, List.cons_append, List.append_assoc, List.cons_append] at hs
  obtain ⟨first, u, test', t, hunary, harrow, htestSame, ht, hloop⟩ :=
    htest s.markArrow _ s.markArrow.place 0 hs.markArrow Nat.one_pos
      (TokenKind.stopsAt_of_none rfl rfl)
  have hbinary : binary d noIn none s.markArrow = .ok (test', none) t := by
    have hstop : t.kind.StopsAt noIn 0 := ht.kind_eq ▸ TokenKind.stopsAt_of_none rfl rfl
    simp [binary, hunary, endsOperand, harrow, hloop test' t (operators_of_stop hd hstop)]
  obtain ⟨t₁, hquestion, ht₁⟩ := ht.takes
  obtain ⟨consequent', t₂, hconsequent', hconsequentSame, ht₂⟩ :=
    hconsequent t₁ _ true ht₁ (TokenKind.closes_of_none rfl rfl rfl rfl)
  obtain ⟨t₃, hcolon, ht₃⟩ := ht₂.takes
  obtain ⟨alternate', t₄, halternate', halternateSame, ht₄⟩ := halternate t₃ rest true ht₃ hk
  have hconditional : conditional d noIn none s.markArrow =
      .ok (.conditional (t₄.spanFrom s.markArrow.place) test' consequent' alternate', none) t₄ := by
    have hends := isArrowAt_of_erase htestSame hplain s.markArrow.place
    simp [conditional, hbinary, endsOperand, hends, Descent.value]
    exact .inr ⟨t₁, hquestion, none, t₂, hconsequent', t₃, hcolon, none, halternate'⟩
  refine ⟨_, t₄, assignment_of_conditional hd (hs.scope ▸ hσ) hconditional ?_, ?_, ht₄⟩
  · rw [ht₄.kind_eq]
    exact hk.not_assignment
  · simp only [Node.erase, htestSame, hconsequentSame, halternateSame]

omit hd in
/-- A name or a member is a target in sloppy code. -/
theorem toPattern_of_simple {e' : Expression} {target : Pattern} (h : e'.erase = e.erase)
    (hs : IsSimple e) (htarget : e.toPattern false = .ok target) :
    ∃ target', e'.toPattern false = .ok target' ∧ target'.erase = target.erase ∧
      (target'.check false false none).1 = .ok () := by
  cases e with
  | identifier id =>
    cases e' with
    | identifier id' =>
      cases htarget
      refine ⟨.namePattern id', rfl, ?_, rfl⟩
      simpa [Node.erase] using h
    | _ => cases h
  | member span object property computed =>
    cases e' with
    | member span' object' property' computed' =>
      cases htarget
      refine ⟨.memberPattern span' object' property' computed', rfl, ?_, rfl⟩
      simpa [Node.erase] using h
    | _ => cases h
  | _ => exact hs.elim

/-- A name or a member, an assignment operator, and the value. -/
theorem readsValue_assignment (hσ : σ.inGenerator = false) (hstrict : σ.strict = false)
    {left value : Expression} {target : Pattern} {leftWords valueWords : List Word}
    (operator : AssignmentOperator) (span : Span) (hsimple : IsSimple left)
    (htarget : left.toPattern false = .ok target) (hleft : ReadsSuffixed d σ false leftWords left)
    (hvalue : ReadsValue d σ noIn valueWords value) :
    ReadsValue d σ noIn (leftWords ++ operator.word :: valueWords)
      (.assignment span operator target value) := by
  intro s rest owned hs hk
  rw [List.append_assoc, List.cons_append] at hs
  have hkinds : operator.word.kind.isAssignment = true ∧ operator.word.kind.StopsAt noIn 0 ∧
      operator.word.kind ≠ .question := by
    cases operator <;> exact ⟨rfl, ⟨rfl, nofun⟩, nofun⟩
  obtain ⟨hassignment, hstop, hquestion⟩ := hkinds
  obtain ⟨left', t, hunary, hsame, ht⟩ :=
    readsOperand_of_suffixed hd hleft s.markArrow _ hs.markArrow hstop.not_suffix
  have hleftSimple := isSimple_of_erase hsame hsimple
  have hkind : t.kind = operator.word.kind := ht.kind_eq
  rw [← hkind] at hassignment hstop hquestion
  have hbinary : binary d noIn none s.markArrow = .ok (left', none) t := by
    simp [binary, hunary, endsOperand, operators_of_stop hd hstop]
  have hconditional : conditional d noIn none s.markArrow = .ok (left', none) t := by
    simp [conditional, hbinary, hquestion]
  have hoperator : operatorOf AssignmentOperator.ofSpelling? t.stream.token = some operator := by
    unfold operatorOf
    rw [ht.value_eq]
    cases operator <;> rfl
  obtain ⟨target', htarget', htargetSame, hlegal⟩ := toPattern_of_simple hsame hsimple htarget
  obtain ⟨t₁, ha, ht₁⟩ := ht.advance
  obtain ⟨value', t₂, hvalue', hvalueSame, ht₂⟩ := hvalue t₁ rest true ht₁ hk
  refine ⟨_, t₂, assignment_of_target hd (hs.scope ▸ hσ) hconditional hassignment hoperator
    htarget' hleftSimple ?_ ha hvalue', ?_, ht₂⟩
  · rw [ht.scope, hstrict]
    exact hlegal
  · simp only [Node.erase, htargetSame, hvalueSame]

end Grammar

end EcmaTree
