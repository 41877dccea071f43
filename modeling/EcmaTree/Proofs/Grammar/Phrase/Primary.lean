import EcmaTree.Proofs.Grammar.Phrase.Operator
import EcmaTree.Proofs.Token.Spells

/-!
# Phrases in brackets, calls and members

Lists of phrases are read item by item, with a comma before every item but the first. A list in
parentheses is a primary expression again, whatever operators are in it: since no arrow comes, the
attempt to read it as parameters fails.
-/

namespace EcmaTree

open EcmaTree.Parser EcmaTree.Grammar EcmaTree.Reading

/-- A token that an operand of the printed kinds begins with. -/
def TokenKind.opensOperand : TokenKind → Bool
  | .num | .name | .bracketL | .parenL | .incDec | .bang | .plusMin => true
  | .keyword .new | .keyword .this | .keyword .typeof | .keyword .void | .keyword .delete => true
  | _ => false

theorem TokenKind.ne_of_opensOperand {k k' : TokenKind} (h : k.opensOperand = true)
    (h' : k'.opensOperand = false) : k ≠ k' := by
  rintro rfl
  cases h.symm.trans h'

/-- The expression that a list in parentheses is. -/
def Expression.ofItems (span : Span) : List Expression → Expression
  | [value] => value
  | values => .sequence span (.ofList values)

namespace Grammar

variable (d : Descent) (σ : Scope)

/-- The words are an item of a list. -/
structure ReadsItem (words : List Word) (e : Expression) : Prop where
  opens : (kindAhead words).opensOperand = true
  value : ReadsValue d σ false words e

/-- The words are an expression, which may have commas. -/
inductive ReadsExpression : List Word → Expression → Prop
  | single {words : List Word} {e : Expression} (item : ReadsItem d σ words e) :
      ReadsExpression words e
  | sequence {items : List (List Word × Expression)} (span : Span) (many : 2 ≤ items.length)
      (each : ∀ i ∈ items, ReadsItem d σ i.1 i.2) :
      ReadsExpression (commaBetween (items.map Prod.fst))
        (.sequence span (.ofList (items.map Prod.snd)))

variable {d σ} {options : ParseOptions} (hd : Answers options d) {s : ParseState}
  {words rest : List Word} {e : Expression} {items : List (List Word × Expression)}

theorem erase_ofList {c : Category} (nodes : List (Node c)) :
    (Node.ofList nodes).erase = .ofList (nodes.map Node.erase) := by
  induction nodes with
  | nil => rfl
  | cons node nodes ih => exact congrArg (Node.cons node.erase) ih

section Lists

/-! ### Lists -/

theorem kindAhead_append (h : (kindAhead words).opensOperand = true) (after : List Word) :
    kindAhead (words ++ after) = kindAhead words := by
  cases words with
  | nil => cases h
  | cons => rfl

/-- An item of a list is read, and what comes behind it is still there. -/
theorem ReadsItem.read {after : List Word} (h : ReadsItem d σ words e)
    (hs : s.Before σ (words ++ after)) (hk : (kindAhead after).Closes false) (owned : Bool) :
    s.kind.opensOperand = true ∧ ∃ e' t, d (.assignment false owned none) s = .ok (e', none) t ∧
      e'.erase = e.erase ∧ t.Before σ after := by
  refine ⟨?_, h.value s after owned hs hk⟩
  rw [hs.kind_eq, kindAhead_append h.opens]
  exact h.opens

theorem closes_comma : TokenKind.comma.Closes false :=
  TokenKind.closes_of_none rfl rfl rfl rfl

theorem closes_commaBefore {lists : List (List Word)} (h : (kindAhead rest).Closes false) :
    (kindAhead (commaBefore lists ++ rest)).Closes false := by
  cases lists with
  | nil => exact h
  | cons => exact closes_comma

theorem commaBefore_cons (words : List Word) (lists : List (List Word)) (rest : List Word) :
    commaBefore (words :: lists) ++ rest = .comma :: (words ++ (commaBefore lists ++ rest)) := by
  simp [commaBefore]

include hd

/-- The operands of a comma expression behind the first one. -/
theorem commaOperands_of_items (each : ∀ i ∈ items, ReadsItem d σ i.1 i.2) (owned : Bool)
    (hs : s.Before σ (commaBefore (items.map Prod.fst) ++ rest))
    (hclose : (kindAhead rest).Closes false) (hcomma : kindAhead rest ≠ .comma) :
    ∃ es t, d (.commaOperands false owned none) s = .ok (es, none) t ∧
      es.map Node.erase = items.map (·.2.erase) ∧ t.Before σ rest := by
  induction items generalizing s with
  | nil =>
    refine ⟨[], s, ?_, rfl, hs⟩
    rw [← hd.rule_eq (.commaOperands false owned none) s trivial]
    have hk : s.kind ≠ .comma := hs.kind_eq ▸ hcomma
    simp [rule, commaOperands, hk]
  | cons i items ih =>
    obtain ⟨hi, each⟩ := List.forall_mem_cons.mp each
    rw [List.map_cons, commaBefore_cons] at hs
    obtain ⟨s₁, ht, hs₁⟩ := hs.takes
    obtain ⟨-, e', s₂, hitem, hsame, hs₂⟩ := hi.read hs₁ (closes_commaBefore hclose) owned
    obtain ⟨es, t, hmore, hsame', ht'⟩ := ih each hs₂
    refine ⟨e' :: es, t, ?_, ?_, ht'⟩
    · rw [← hd.rule_eq (.commaOperands false owned none) s trivial]
      simp [rule, commaOperands]
      exact ⟨s₁, ht, none, s₂, hitem, hmore⟩
    · rw [List.map_cons, List.map_cons, hsame, hsame']

/-- The items of a parenthesized list behind the first one. -/
theorem parenthesized_of_items (each : ∀ i ∈ items, ReadsItem d σ i.1 i.2)
    (hs : s.Before σ (commaBefore (items.map Prod.fst) ++ .parenR :: rest)) :
    ∃ (es : List Expression) (t : ParseState),
      d (.parenthesized false none) s = .ok (es.map Node.item, none) t ∧
      es.map Node.erase = items.map (·.2.erase) ∧ t.Before σ (.parenR :: rest) := by
  induction items generalizing s with
  | nil =>
    refine ⟨[], s, ?_, rfl, hs⟩
    rw [← hd.rule_eq (.parenthesized false none) s trivial]
    have hk : s.kind = .parenR := hs.kind_eq
    simp [rule, parenthesized, hk]
  | cons i items ih =>
    obtain ⟨hi, each⟩ := List.forall_mem_cons.mp each
    rw [List.map_cons, commaBefore_cons] at hs
    obtain ⟨s₁, ht, hs₁⟩ := hs.takes
    obtain ⟨hopens, e', s₂, hitem, hsame, hs₂⟩ :=
      hi.read hs₁ (closes_commaBefore (TokenKind.closes_of_none rfl rfl rfl rfl)) false
    obtain ⟨es, t, hmore, hsame', ht'⟩ := ih each hs₂
    refine ⟨e' :: es, t, ?_, ?_, ht'⟩
    · rw [← hd.rule_eq (.parenthesized false none) s trivial]
      have hk : s.kind ≠ .parenR := by
        rw [ht.1]
        decide
      have hfirst : s₁.kind ≠ .parenR := TokenKind.ne_of_opensOperand hopens rfl
      have hplain : s₁.kind ≠ .ellipsis := TokenKind.ne_of_opensOperand hopens rfl
      simp [rule, parenthesized, hk]
      exact ⟨s₁, ht, hfirst, hplain, none, s₂, hitem, hmore⟩
    · rw [List.map_cons, List.map_cons, hsame, hsame']

omit hd in
/-- Behind the items of a list in brackets comes the closing bracket. -/
theorem closes_bracket {k : TokenKind} (h : k = .parenR ∨ k = .bracketR) : k.Closes false := by
  rcases h with rfl | rfl <;> exact TokenKind.closes_of_none rfl rfl rfl rfl

omit hd in
theorem isBounded_elements {k : TokenKind} (h : k = .parenR ∨ k = .bracketR)
    {trailingComma holes isFirst : Bool} {pending : Pending} :
    (Goal.elements k trailingComma holes isFirst pending).IsBounded := by
  rcases h with rfl | rfl <;> exact nofun

/-- One element before others. -/
theorem elements_of_item {s₁ s₂ t : ParseState} {stop : TokenKind} {holes isFirst : Bool}
    {others : List (Option Element)} (hstop : stop = .parenR ∨ stop = .bracketR)
    (hk : s.kind ≠ stop) (hs : Separator isFirst s s₁) (hopens : s₁.kind.opensOperand = true)
    (hitem : d (.assignment false false none) s₁ = .ok (e, none) s₂)
    (hmore : d (.elements stop true holes false none) s₂ = .ok (others, none) t) :
    d (.elements stop true holes isFirst none) s = .ok (some (.item e) :: others, none) t := by
  rw [← hd.rule_eq _ s (isBounded_elements hstop)]
  have hfirst : s₁.kind ≠ stop := by
    rcases hstop with rfl | rfl <;> exact TokenKind.ne_of_opensOperand hopens rfl
  have hplain : s₁.kind ≠ .ellipsis := TokenKind.ne_of_opensOperand hopens rfl
  have hpresent : s₁.kind ≠ .comma := TokenKind.ne_of_opensOperand hopens rfl
  have helement : elements.element d holes none s₁ = .ok (some (.item e), none) s₂ := by
    cases holes <;> simp [elements.element, hpresent, hplain, hitem]
  simp only [rule, elements, ite_bind, unless_bind]
  cases hs with
  | first => simp [hk, helement, hmore]
  | comma ht =>
    simp [hk]
    exact ⟨s₁, ht, hfirst, none, s₂, helement, hmore⟩

/-- The elements of a list behind the first one, up to and with the closing bracket. -/
theorem elements_of_items (each : ∀ i ∈ items, ReadsItem d σ i.1 i.2) {stop : Word} {holes : Bool}
    (hstop : stop.kind = .parenR ∨ stop.kind = .bracketR)
    (hs : s.Before σ (commaBefore (items.map Prod.fst) ++ stop :: rest)) :
    ∃ (es : List Expression) (t : ParseState),
      d (.elements stop.kind true holes false none) s =
        .ok (es.map fun e => some (.item e), none) t ∧
      es.map Node.erase = items.map (·.2.erase) ∧ t.Before σ rest := by
  induction items generalizing s with
  | nil =>
    obtain ⟨t, ht, hrest⟩ := hs.takes
    refine ⟨[], t, ?_, rfl, hrest⟩
    rw [← hd.rule_eq _ s (isBounded_elements hstop)]
    simp [rule, elements]
    exact .inr ht
  | cons i items ih =>
    obtain ⟨hi, each⟩ := List.forall_mem_cons.mp each
    rw [List.map_cons, commaBefore_cons] at hs
    obtain ⟨s₁, ht, hs₁⟩ := hs.takes
    obtain ⟨hopens, e', s₂, hitem, hsame, hs₂⟩ :=
      hi.read hs₁ (closes_commaBefore (closes_bracket hstop)) false
    obtain ⟨es, t, hmore, hsame', ht'⟩ := ih each hs₂
    have hk : s.kind ≠ stop.kind := by
      rw [ht.1]
      rcases hstop with h | h <;> rw [h] <;> decide
    refine ⟨e' :: es, t, elements_of_item hd hstop hk (.comma ht) hopens hitem hmore, ?_, ht'⟩
    rw [List.map_cons, List.map_cons, hsame, hsame']

/-- All elements of a list. -/
theorem elements_of_list (each : ∀ i ∈ items, ReadsItem d σ i.1 i.2) (stop : Word) (holes : Bool)
    (hstop : stop.kind = .parenR ∨ stop.kind = .bracketR)
    (hs : s.Before σ (commaBetween (items.map Prod.fst) ++ stop :: rest)) :
    ∃ (es : List Expression) (t : ParseState),
      d (.elements stop.kind true holes true none) s =
        .ok (es.map fun e => some (.item e), none) t ∧
      es.map Node.erase = items.map (·.2.erase) ∧ t.Before σ rest := by
  cases items with
  | nil =>
    obtain ⟨t, ht, hrest⟩ := hs.takes
    refine ⟨[], t, ?_, rfl, hrest⟩
    rw [← hd.rule_eq _ s (isBounded_elements hstop)]
    simp [rule, elements]
    exact ht
  | cons i items =>
    obtain ⟨hi, each⟩ := List.forall_mem_cons.mp each
    rw [List.map_cons, commaBetween, List.append_assoc] at hs
    obtain ⟨hopens, e', s₁, hitem, hsame, hs₁⟩ :=
      hi.read hs (closes_commaBefore (closes_bracket hstop)) false
    obtain ⟨es, t, hmore, hsame', ht⟩ := elements_of_items hd each hstop hs₁
    have hk : s.kind ≠ stop.kind := by
      rcases hstop with h | h <;> rw [h] <;> exact TokenKind.ne_of_opensOperand hopens rfl
    refine ⟨e' :: es, t, elements_of_item hd hstop hk (.first s) hopens hitem hmore, ?_, ht⟩
    rw [List.map_cons, List.map_cons, hsame, hsame']

/-- The items of a parenthesized list up to its closing parenthesis. -/
theorem parenthesized_of_list (hne : items ≠ []) (each : ∀ i ∈ items, ReadsItem d σ i.1 i.2)
    (hs : s.Before σ (commaBetween (items.map Prod.fst) ++ .parenR :: rest)) :
    ∃ (es : List Expression) (t : ParseState),
      d (.parenthesized true none) s = .ok (es.map Node.item, none) t ∧
      es.map Node.erase = items.map (·.2.erase) ∧ t.Before σ (.parenR :: rest) := by
  obtain ⟨i, items, rfl⟩ := List.exists_cons_of_ne_nil hne
  obtain ⟨hi, each⟩ := List.forall_mem_cons.mp each
  rw [List.map_cons, commaBetween, List.append_assoc] at hs
  obtain ⟨hopens, e', s₁, hitem, hsame, hs₁⟩ :=
    hi.read hs (closes_commaBefore (closes_bracket (.inl rfl))) false
  obtain ⟨es, t, hmore, hsame', ht⟩ := parenthesized_of_items hd each hs₁
  refine ⟨e' :: es, t, ?_, ?_, ht⟩
  · rw [← hd.rule_eq (.parenthesized true none) s trivial]
    have hfirst : s.kind ≠ .parenR := TokenKind.ne_of_opensOperand hopens rfl
    have hplain : s.kind ≠ .ellipsis := TokenKind.ne_of_opensOperand hopens rfl
    simp [rule, parenthesized, hfirst, hplain, hitem, hmore]
  · rw [List.map_cons, List.map_cons, hsame, hsame']

omit hd in
theorem reduceOption_some {α : Type} (values : List α) :
    (values.map some).reduceOption = values := by
  simp [List.reduceOption]

/-- The arguments of a call, behind their opening parenthesis. -/
theorem callArguments_of_list (each : ∀ i ∈ items, ReadsItem d σ i.1 i.2)
    (hs : s.Before σ (commaBetween (items.map Prod.fst) ++ .parenR :: rest)) :
    ∃ (es : List Expression) (t : ParseState),
      suffixes.callArguments d s = .ok (.ofList (es.map Node.item)) t ∧
      es.map Node.erase = items.map (·.2.erase) ∧ t.Before σ rest := by
  obtain ⟨es, t, helements, hsame, ht⟩ :=
    elements_of_list hd each .parenR false (.inl rfl) hs
  refine ⟨es, t, ?_, hsame, ht⟩
  have hplain : (es.map fun e => some (Node.item e)).reduceOption = es.map Node.item := by
    rw [← reduceOption_some (es.map Node.item), List.map_map]
    rfl
  have helements' : d (.elements .parenR true false true none) s =
      .ok (es.map fun e => some (.item e), none) t := helements
  simp [suffixes.callArguments, helements', hplain]

end Lists

section Parentheses

/-! ### Expressions with commas, and parentheses -/

theorem exists_cons_cons_of_two_le {α : Type} {items : List α} (h : 2 ≤ items.length) :
    ∃ first second others, items = first :: second :: others := by
  match items, h with
  | first :: second :: others, _ => exact ⟨first, second, others, rfl⟩

/-- Every answer is a value or a fault. -/
def Decides (d : Descent) : Prop :=
  ∀ g s t, g.IsBounded → d g s ≠ .error .exhausted t

theorem decides_descend : Decides (descend options) := by
  intro g s t hg
  rw [descend_eq_answer hg (Nat.lt_succ_self _)]
  exact answer_ne_exhausted hg (Nat.lt_succ_self _)

include hd

/-- A primary expression is an expression. -/
theorem ReadsPrimary.expression (h : ReadsPrimary d σ words e) (hσ : σ.inGenerator = false)
    (he : e.isArrow = false) (hopens : (kindAhead words).opensOperand = true) :
    ReadsExpression d σ words e := by
  have hoperand := readsOperand_of_suffixed hd (readsSuffixed_of_primary h he false)
  exact .single ⟨hopens, readsValue_of_operators hd hσ (readsOperators_of_operand hoperand he _ _)⟩

/-- An expression that neither a comma nor an operator follows. -/
theorem ReadsExpression.read (h : ReadsExpression d σ words e) (hs : s.Before σ (words ++ rest))
    (hclose : (kindAhead rest).Closes false) (hcomma : kindAhead rest ≠ .comma) :
    ∃ e' t, expression d false s = .ok e' t ∧ e'.erase = e.erase ∧ t.Before σ rest := by
  cases h with
  | single item =>
    obtain ⟨-, e', t, hitem, hsame, ht⟩ := item.read hs hclose true
    have hk : t.kind ≠ .comma := ht.kind_eq ▸ hcomma
    exact ⟨e', t, by simp [expression, expressionWith, hitem, hk], hsame, ht⟩
  | @sequence items span many each =>
    obtain ⟨i, j, items, rfl⟩ := exists_cons_cons_of_two_le many
    obtain ⟨hi, each⟩ := List.forall_mem_cons.mp each
    rw [List.map_cons, commaBetween, List.append_assoc] at hs
    obtain ⟨-, e', s₁, hitem, hsame, hs₁⟩ := hi.read hs (closes_commaBefore hclose) true
    obtain ⟨es, t, hmore, hsame', ht⟩ := commaOperands_of_items hd each true hs₁ hclose hcomma
    have hk : s₁.kind = .comma := hs₁.kind_eq
    refine ⟨.sequence (t.spanFrom s.place) (.ofList (e' :: es)), t, ?_, ?_, ht⟩
    · simp [expression, expressionWith, hitem, hk, hmore]
    · simp only [Node.erase, erase_ofList, List.map_cons] at hsame' ⊢
      rw [hsame, hsame', List.map_map]
      rfl

/-- Parameters of an arrow function fail where no arrow comes. -/
theorem arrowParameters_of_noArrow (hx : Decides d) (hs : s.Before σ words) (hk : s.kind = .parenL)
    (hmark : s.arrowStart = some s.place.offset) :
    ∃ e t, arrowParameters d s = .error (.fault e) t := by
  cases harrow : arrowParameters d s with
  | ok params t =>
    obtain ⟨s₁, ht, hparameters, -, hkind⟩ := of_arrowParameters harrow
    have hf : s.Follows t :=
      (Trail.follows_of_takes ht nofun).trans (Trail.follows_of_parameters hd.traces hparameters)
    exact absurd hkind (hs.not_arrow_of_follows hf)
  | error stop t =>
    cases stop with
    | fault e => exact ⟨e, t, rfl⟩
    | exhausted =>
      have hattempt : Parser.attempt (arrowParameters d) s = .error .exhausted t := by
        rw [Parser.attempt, harrow]
      have hparenthesis : parenthesis d true s = .error .exhausted t := by
        unfold parenthesis
        rw [bind_of_ok (here_eq_ok.mpr ⟨rfl, rfl⟩), if_pos rfl, bind_of_error hattempt]
      have hprimary : primary d none s = .error .exhausted t := by
        unfold primary
        rw [bind_of_ok (here_eq_ok.mpr ⟨rfl, rfl⟩), bind_of_ok (get_eq_ok.mpr ⟨rfl, rfl⟩),
          bind_of_ok (kind_eq_ok.mpr ⟨hk.symm, rfl⟩), hmark, beq_self_eq_true]
        exact bind_of_error hparenthesis
      have hrun : rule options d (.primary none) s = .error .exhausted t := hprimary
      rw [hd.rule_eq (.primary none) s trivial] at hrun
      exact absurd hrun (hx (.primary none) s t trivial)

omit hd in
theorem erase_ofItems {es es' : List Expression} (h : es.map Node.erase = es'.map Node.erase)
    (span span' : Span) : (Expression.ofItems span es).erase =
      (Expression.ofItems span' es').erase := by
  match es, es' with
  | [], [] => rfl
  | [e], [e'] => exact (List.cons.inj h).1
  | e₁ :: e₂ :: es, e₁' :: e₂' :: es' =>
    simp only [Expression.ofItems, Node.erase, erase_ofList, h]
  | [], _ :: _ | _ :: _, [] => cases h
  | [_], _ :: _ :: _ | _ :: _ :: _, [_] => cases (List.cons.inj h).2

omit hd in
theorem ReadsExpression.exists_items (h : ReadsExpression d σ words e) :
    ∃ items : List (List Word × Expression), items ≠ [] ∧
      (∀ i ∈ items, ReadsItem d σ i.1 i.2) ∧ words = commaBetween (items.map Prod.fst) ∧
      ∃ span, Expression.ofItems span (items.map Prod.snd) = e := by
  cases h with
  | @single words e item =>
    refine ⟨[(words, e)], List.cons_ne_nil _ _, List.forall_mem_singleton.mpr item, ?_, default,
      rfl⟩
    simp [commaBetween, commaBefore]
  | @sequence items span many each =>
    obtain ⟨i, j, items, rfl⟩ := exists_cons_cons_of_two_le many
    exact ⟨i :: j :: items, List.cons_ne_nil _ _, each, rfl, span, rfl⟩

/-- An expression in parentheses. -/
theorem readsPrimary_parentheses (hx : Decides d) (h : ReadsExpression d σ words e) :
    ReadsPrimary d σ (.parenL :: (words ++ [.parenR])) e := by
  intro s rest hs
  obtain ⟨items, hne, each, rfl, span, rfl⟩ := h.exists_items
  have hkind : s.kind = .parenL := hs.kind_eq
  have hfails := arrowParameters_of_noArrow hd hx hs hkind
  rw [List.cons_append, List.append_assoc] at hs
  obtain ⟨s₁, hopening, hs₁⟩ := hs.takes
  obtain ⟨es, s₂, hitems, hes, hs₂⟩ := parenthesized_of_list hd hne each hs₁
  obtain ⟨t, hclosing, ht⟩ := hs₂.takes
  have hplain : es ≠ [] := by
    rintro rfl
    exact hne (List.map_eq_nil_iff.mp hes.symm)
  have hexpressions : expressionsOf (es.map Node.item) = es := by
    simp [expressionsOf, List.filterMap_map]
  have hrest : restAtEnd? (es.map Node.item) = none := by
    unfold restAtEnd?
    rw [List.getLast?_map]
    cases es.getLast? <;> rfl
  refine ⟨.ofItems (Span.closing s₁.place (s₂.lastEnd s₁.place)) es, t, ?_,
    erase_ofItems (hes.trans (List.map_map ..).symm) _ _, ht⟩
  have hparenthesized : ∀ start canBeArrow, parenthesizedExpression d start canBeArrow s =
      .ok (.ofItems (Span.closing s₁.place (s₂.lastEnd s₁.place)) es) t := by
    intro start canBeArrow
    have harrow : t.kind ≠ .arrow := ht.kind_ne_arrow
    simp only [parenthesizedExpression, ite_bind]
    simp
    refine ⟨s₁, hopening, es.map Node.item, none, s₂, hitems, t, hclosing, .inl ⟨t, ?_, ?_⟩⟩
    · cases canBeArrow <;> simp [harrow]
    rw [hrest, hexpressions]
    obtain ⟨first, es, rfl⟩ := List.exists_cons_of_ne_nil hplain
    cases es <;> simp [Pending.refuse, Expression.ofItems]
  rw [← hd.rule_eq (.primary none) s trivial]
  have hk : s.stream.token.kind = .parenL := hkind
  by_cases hmark : s.arrowStart = some s.place.offset
  · simp [rule, primary, parenthesis, hk, hmark]
    exact ⟨none, s, .inr ⟨rfl, rfl, hfails hmark⟩, hparenthesized _ _⟩
  · simp [rule, primary, parenthesis, hk, hparenthesized, hmark]

end Parentheses

section Primaries

/-! ### Primary expressions -/

theorem erase_ofList_items {es : List Expression}
    (h : es.map Node.erase = items.map (·.2.erase)) :
    (Node.ofList (es.map Node.item)).erase =
      (Node.ofList (items.map fun i => Node.item i.2)).erase := by
  rw [erase_ofList, erase_ofList, List.map_map, List.map_map]
  have hitem := congrArg (List.map Node.item) h
  rw [List.map_map, List.map_map] at hitem
  exact congrArg Node.ofList hitem

theorem erase_ofHoleyList_items {es : List Expression}
    (h : es.map Node.erase = items.map (·.2.erase)) :
    (Node.ofHoleyList (es.map fun e => some (Node.item e))).erase =
      (Node.ofHoleyList (items.map fun i => some (Node.item i.2))).erase := by
  rw [Node.ofHoleyList, Node.ofHoleyList, erase_ofList, erase_ofList]
  simp only [List.map_map]
  have hitem := congrArg (List.map fun e => Node.present (Node.item e)) h
  rw [List.map_map, List.map_map] at hitem
  exact congrArg Node.ofList hitem

theorem identifier_of_name {n : String} (hs : s.Before σ (.name n :: rest)) (liberal : Bool) :
    ∃ span t, identifier liberal s = .ok ⟨span, n⟩ t ∧ t.Before σ rest := by
  obtain ⟨t, ⟨hk, ha⟩, ht⟩ := hs.takes
  have hvalue : s.stream.token.value = .name n := hs.value_eq
  refine ⟨t.spanFrom s.place, t, ?_, ht⟩
  have hkind : s.stream.token.kind = .name := hk
  simp [identifier, hvalue, hkind, ha]

include hd

theorem readsPrimary_identifier (span : Span) (n : String) :
    ReadsPrimary d σ [.name n] (.identifier ⟨span, n⟩) := by
  intro s rest hs
  have hk : s.stream.token.kind = .name := hs.kind_eq
  obtain ⟨span', t, hname, ht⟩ := identifier_of_name hs false
  have harrow : t.kind ≠ .arrow := ht.kind_ne_arrow
  refine ⟨.identifier ⟨span', n⟩, t, ?_, rfl, ht⟩
  rw [← hd.rule_eq (.primary none) s trivial]
  simp [rule, primary, hk, nameOrArrow, hname, harrow]

theorem readsPrimary_this (span : Span) :
    ReadsPrimary d σ [.keyword .this] (.this span) := by
  intro s rest hs
  obtain ⟨t, ⟨hk, ha⟩, ht⟩ := hs.takes
  have hkind : s.stream.token.kind = .keyword .this := hk
  refine ⟨.this (t.spanFrom s.place), t, ?_, rfl, ht⟩
  rw [← hd.rule_eq (.primary none) s trivial]
  simp [rule, primary, hkind, ha]

theorem readsPrimary_integer (span : Span) (raw : String) :
    ReadsPrimary d σ [.integer raw]
      (.literal ⟨span, .number (Decimal.nearest (Decimal.naturalOf raw.toList) 0), raw⟩) := by
  intro s rest hs
  obtain ⟨t, ⟨hk, ha⟩, ht⟩ := hs.takes
  have hkind : s.stream.token.kind = .num := hk
  have hvalue : s.stream.token.value = (Word.integer raw).value := hs.value_eq
  have htext : s.stream.token.text = raw.toList := hs.text_eq
  have hliteral : literalValue? s.stream.token =
      some (.number (Decimal.nearest (Decimal.naturalOf raw.toList) 0)) := by
    rw [literalValue?, hkind, hvalue]
    rfl
  refine ⟨.literal ⟨t.spanFrom s.place,
    .number (Decimal.nearest (Decimal.naturalOf raw.toList) 0), raw⟩, t, ?_, rfl, ht⟩
  rw [← hd.rule_eq (.primary none) s trivial]
  simp [rule, primary, hkind, literal, hliteral, ha, htext]

/-- Items between brackets are an array without holes. -/
theorem readsPrimary_array (span : Span) (each : ∀ i ∈ items, ReadsItem d σ i.1 i.2) :
    ReadsPrimary d σ (.bracketL :: (commaBetween (items.map Prod.fst) ++ [.bracketR]))
      (.array span (.ofHoleyList (items.map fun i => some (.item i.2)))) := by
  intro s rest hs
  rw [List.cons_append, List.append_assoc] at hs
  obtain ⟨s₁, ⟨hk, ha⟩, hs₁⟩ := hs.takes
  have hkind : s.stream.token.kind = .bracketL := hk
  obtain ⟨es, t, helements, hsame, ht⟩ :=
    elements_of_list hd each .bracketR true (.inr rfl) hs₁
  have helements' : d (.elements .bracketR true true true none) s₁ =
      .ok (es.map fun e => some (.item e), none) t := helements
  refine ⟨.array (t.spanFrom s.place) (.ofHoleyList (es.map fun e => some (.item e))), t, ?_, ?_,
    ht⟩
  · rw [← hd.rule_eq (.primary none) s trivial]
    simp [rule, primary, hkind]
    exact ⟨s₁, ha, _, helements', rfl⟩
  · simp only [Node.erase, erase_ofHoleyList_items hsame]

/-- `new` with a callee and arguments. -/
theorem readsPrimary_new (span : Span) {callee : Expression} {calleeWords : List Word}
    (hcallee : ReadsSuffixed d σ true calleeWords callee)
    (each : ∀ i ∈ items, ReadsItem d σ i.1 i.2) :
    ReadsPrimary d σ
      (.keyword .new ::
        (calleeWords ++ .parenL :: (commaBetween (items.map Prod.fst) ++ [.parenR])))
      (.new span callee (.ofList (items.map fun i => .item i.2))) := by
  intro s rest hs
  simp only [List.cons_append, List.append_assoc] at hs
  obtain ⟨s₁, ⟨hk, ha⟩, hs₁⟩ := hs.takes
  have hkind : s.stream.token.kind = .keyword .new := hk
  obtain ⟨first, s₂, callee', s₃, hfirst, -, hsame, hs₃, hloop⟩ := hcallee s₁ _ s₁.place hs₁
  have hkind₃ : s₃.kind = .parenL := hs₃.kind_eq
  have hsuffixes :=
    hloop callee' s₃ (suffixes_of_stop hd (by simp [hkind₃]) (by simp [hkind₃]) nofun)
  obtain ⟨s₄, hopening, hs₄⟩ := hs₃.takes
  obtain ⟨es, t, harguments, hsame', ht⟩ := callArguments_of_list hd each hs₄
  refine ⟨.new (t.spanFrom s.place) callee' (.ofList (es.map .item)), t, ?_, ?_, ht⟩
  · rw [← hd.rule_eq (.primary none) s trivial]
    simp [rule, primary, hkind, newExpression]
    exact ⟨s₁, ha, first, s₂, hfirst, callee', s₃, hsuffixes, .inr ⟨s₄, hopening, harguments, rfl⟩⟩
  · simp only [Node.erase, hsame, erase_ofList_items hsame']

end Primaries

section Suffixes

/-! ### Suffixes -/

variable {noCalls : Bool} {base : Expression} {baseWords : List Word}

include hd

/-- A member by its name. -/
theorem readsSuffixed_dot (span : Span) (property : Identifier)
    (h : ReadsSuffixed d σ noCalls baseWords base) :
    ReadsSuffixed d σ noCalls (baseWords ++ [.dot, .name property.name])
      (.member span base (.identifier property) false) := by
  intro s rest start hs
  rw [List.append_assoc] at hs
  obtain ⟨first, u, base', t, hfirst, harrow, hsame, ht, hloop⟩ := h s _ start hs
  obtain ⟨t₁, hdot, ht₁⟩ := ht.takes
  obtain ⟨nameSpan, t₂, hname, ht₂⟩ := identifier_of_name ht₁ true
  refine ⟨first, u, .member (t₂.spanFrom start) base' (.identifier ⟨nameSpan, property.name⟩) false,
    t₂, hfirst, harrow, ?_, ht₂, fun r v hmore => hloop r v ?_⟩
  · simp only [Node.erase, hsame]
    rfl
  · rw [← hd.rule_eq (.suffixes base' start noCalls) t trivial]
    simp [rule, suffixes]
    exact .inr ⟨t₁, hdot, _, t₂, hname, hmore⟩

/-- A member by an expression in brackets. -/
theorem readsSuffixed_bracket (span : Span) {property : Expression}
    (h : ReadsSuffixed d σ noCalls baseWords base)
    (hproperty : ReadsExpression d σ words property) :
    ReadsSuffixed d σ noCalls (baseWords ++ .bracketL :: (words ++ [.bracketR]))
      (.member span base property true) := by
  intro s rest start hs
  simp only [List.append_assoc, List.cons_append] at hs
  obtain ⟨first, u, base', t, hfirst, harrow, hsame, ht, hloop⟩ := h s _ start hs
  have hkind : t.kind = .bracketL := ht.kind_eq
  obtain ⟨t₁, hopening, ht₁⟩ := ht.takes
  obtain ⟨property', t₂, hread, hsame', ht₂⟩ :=
    hproperty.read hd ht₁ (closes_bracket (.inr rfl)) nofun
  obtain ⟨t₃, hclosing, ht₃⟩ := ht₂.takes
  refine ⟨first, u, .member (t₃.spanFrom start) base' property' true,
    t₃, hfirst, harrow, ?_, ht₃, fun r v hmore => hloop r v ?_⟩
  · simp only [Node.erase, hsame, hsame']
  · rw [← hd.rule_eq (.suffixes base' start noCalls) t trivial]
    simp [rule, suffixes, hkind]
    exact .inl ⟨t₁, hopening, property', t₂, hread, t₃, hclosing, hmore⟩

/-- A call, where one may come. -/
theorem readsSuffixed_call (span : Span) (h : ReadsSuffixed d σ false baseWords base)
    (each : ∀ i ∈ items, ReadsItem d σ i.1 i.2) :
    ReadsSuffixed d σ false
      (baseWords ++ .parenL :: (commaBetween (items.map Prod.fst) ++ [.parenR]))
      (.call span base (.ofList (items.map fun i => .item i.2))) := by
  intro s rest start hs
  simp only [List.append_assoc, List.cons_append] at hs
  obtain ⟨first, u, base', t, hfirst, harrow, hsame, ht, hloop⟩ := h s _ start hs
  have hkind : t.kind = .parenL := ht.kind_eq
  obtain ⟨t₁, hopening, ht₁⟩ := ht.takes
  obtain ⟨es, t₂, harguments, hsame', ht₂⟩ := callArguments_of_list hd each ht₁
  refine ⟨first, u, .call (t₂.spanFrom start) base' (.ofList (es.map .item)),
    t₂, hfirst, harrow, ?_, ht₂, fun r v hmore => hloop r v ?_⟩
  · simp only [Node.erase, hsame, erase_ofList_items hsame']
  · rw [← hd.rule_eq (.suffixes base' start false) t trivial]
    simp [rule, suffixes, hkind]
    exact .inl (.inl ⟨t₁, hopening, _, t₂, harguments, hmore⟩)

end Suffixes

end Grammar

end EcmaTree
