import EcmaTree.Proofs.Grammar.Asking.Basic

/-!
# What expressions and targets ask

A rule for an expression asks for operands where it begins itself, behind operators and words that
have an operand, and behind the brackets and signs before an item of a list.
-/

namespace EcmaTree

open EcmaTree.Parser EcmaTree.Grammar EcmaTree.Reading ParseState

namespace Asking

variable {begins : TokenStream → Prop} {d d' : Descent} {s t : ParseState} {k : TokenKind}

theorem hosts_of_takes (hs : s.IsFree) (h : Takes k s t) (hk : k.beforeExpression = true) :
    t.Hosts begins :=
  .inl (hs.isLed_of_advance h.2 (h.1 ▸ hk))

theorem hosts_of_eat (hs : s.IsFree) (h : eat k s = .ok true t)
    (hk : k.beforeExpression = true) : t.Hosts begins := by
  rcases eat_eq_ok.mp h with ⟨-, h⟩ | ⟨hfalse, -, -⟩
  · exact hosts_of_takes hs h hk
  · cases hfalse

theorem same_identifier {liberal : Bool} : Same (identifier liberal) (identifier liberal) s := by
  refine .of_isFree fun id t h => ?_
  obtain ⟨name, -, hk, word, -⟩ := of_identifier h
  refine isFree_of_advance word ?_
  rintro hdot
  simp [hdot, TokenKind.isKeyword, TokenKind.keyword?] at hk

theorem same_literal : Same literal literal s := by
  refine .of_isFree fun lit t h => ?_
  obtain ⟨value, hvalue, word, -⟩ := of_literal h
  refine isFree_of_advance word ?_
  rintro hdot
  unfold literalValue? at hvalue
  rw [show s.stream.token.kind = .dot from hdot] at hvalue
  cases hvalue

theorem same_restOfBinding (hs : s.IsFree) (hk : s.kind = .ellipsis) :
    Same restOfBinding restOfBinding s := by
  refine .look stays_here hs fun _ _ => (Same.advance (by simp [hk])).bind fun _ _ _ _ => ?_
  exact same_identifier.ends fun _ => stays_finish.bind fun _ => stays_pure

theorem stays_simpleTarget {e : Expression} : Stays (simpleTarget e) := by
  unfold simpleTarget
  split
  · exact stays_lift
  · exact stays_lift
  · exact stays_fail

theorem stays_checkUpdated {e : Expression} : Stays (checkUpdated e) := by
  unfold checkUpdated
  split
  · exact stays_checkTarget
  · exact stays_pure
  · exact stays_fail

theorem same_trailingUpdate {start : Place} {e : Expression} (hs : s.IsFree) :
    Same (trailingUpdate start e) (trailingUpdate start e) s := by
  refine .of_isFree fun r t h => ?_
  cases of_trailingUpdate h with
  | bare => exact hs
  | update kind simple spelling word => exact isFree_of_advance word (by simp [kind])

section Rules

/- Both ways of answering agree on the goals that may be asked. -/
variable (hd : ∀ g t, g.Suits begins t → Same (d g) (d' g) t)

include hd

theorem same_ask {g : Goal} (hs : s.IsFree) (hstop : g.stopsAtDot = false)
    (hg : ¬g.BeginsOperand) : Same (d g) (d' g) s :=
  hd g s ⟨hs, hstop, fun h => absurd h hg⟩

theorem same_askOperand {g : Goal} (hs : s.IsFree) (hstop : g.stopsAtDot = false)
    (hh : s.Hosts begins) : Same (d g) (d' g) s :=
  hd g s ⟨hs, hstop, fun _ => hh⟩

theorem same_value {noIn : Bool} (hs : s.IsFree) (hh : s.Hosts begins) :
    Same (d.value noIn) (d'.value noIn) s :=
  (same_askOperand hd hs rfl hh).ends fun _ => stays_pure

theorem same_operand (hs : s.IsFree) (hh : s.Hosts begins) : Same d.operand d'.operand s :=
  (same_askOperand hd hs rfl hh).ends fun _ => stays_refuse.bind fun _ => stays_pure

theorem same_propertyName (hs : s.IsFree) : Same (propertyName d) (propertyName d') s := by
  refine .eaten (by decide) (fun t h ht => ?_) (.kind hs ?_)
  · refine (same_value hd ht (hosts_of_takes hs h rfl)).bind fun _ _ _ _ => ?_
    exact (Same.expect (by decide)).ends fun _ => stays_pure
  · split
    · exact same_literal.ends fun _ => stays_pure
    · exact same_literal.ends fun _ => stays_pure
    · exact same_identifier.ends fun _ => stays_pure

theorem same_bindingAtom (hs : s.IsFree) : Same (bindingAtom d) (bindingAtom d') s := by
  refine .kind hs ?_
  split
  · exact same_identifier.ends fun _ => stays_pure
  · next hk =>
    refine .look stays_here hs fun _ _ => (Same.advance (by simp [hk])).bind fun _ _ _ ht => ?_
    refine (same_ask hd ht rfl id).ends fun _ => ?_
    exact stays_finish.bind fun _ => stays_pure
  · refine .look stays_here hs fun _ _ => .expected (by decide) fun _ _ ht => ?_
    exact (same_ask hd ht rfl id).ends fun _ => stays_finish.bind fun _ => stays_pure
  · exact .unexpected

theorem same_withDefault {start : Place} {target : Pattern} (hs : s.IsFree) :
    Same (withDefault d start target) (withDefault d' start target) s := by
  refine .eaten (by decide) (fun t h ht => ?_) (.pure hs)
  refine (same_value hd ht (hosts_of_takes hs h rfl)).ends fun _ => ?_
  exact stays_finish.bind fun _ => stays_pure

theorem same_bindingElement (hs : s.IsFree) : Same (bindingElement d) (bindingElement d') s :=
  .look stays_here hs fun _ _ =>
    (same_bindingAtom hd hs).bind fun _ _ _ ht => same_withDefault hd ht

theorem same_targets {stop : TokenKind} {holes trailingComma isFirst : Bool}
    (hstop : (stop == .dot) = false) (hs : s.IsFree) :
    Same (targets d stop holes trailingComma isFirst)
      (targets d' stop holes trailingComma isFirst) s := by
  simp only [targets, ite_bind, unless_bind]
  have hne := ne_of_beq_false hstop
  refine .eaten hne (fun _ _ ht => .pure ht) ?_
  refine (Same.ite (fun _ => .pure hs) fun _ => .expect (by decide)).bind fun _ t _ ht => ?_
  refine .look (.ite stays_sees stays_pure) ht fun _ _ => .ite (fun _ => ?_) fun _ => ?_
  · exact (same_ask (g := .targets ..) hd ht hstop id).ends fun _ => stays_pure
  refine (Same.ite (fun _ => .eat hne ht) fun _ => .pure ht).bind fun _ u _ hu => ?_
  refine .ite (fun _ => .pure hu) fun _ => .look stays_sees hu fun b hb => ?_
  obtain ⟨rfl, -⟩ := sees_eq_ok.mp hb
  refine .ite (fun hk => ?_) fun _ => ?_
  · refine (same_restOfBinding hu (eq_of_beq hk)).bind fun _ _ _ _ => ?_
    exact (Same.expect hne).ends fun _ => stays_pure
  · refine (same_bindingElement hd hu).bind fun _ _ _ hv => ?_
    exact (same_ask (g := .targets ..) hd hv hstop id).ends fun _ => stays_pure

theorem same_patternProperty (hs : s.IsFree) :
    Same (patternProperty d) (patternProperty d') s := by
  refine .look stays_here hs fun _ _ => (same_propertyName hd hs).bind fun key t _ ht => ?_
  refine .eaten (by decide) (fun _ _ hu => ?_) ?_
  · exact (same_bindingElement hd hu).ends fun _ => stays_finish.bind fun _ => stays_pure
  · split
    · exact (same_withDefault hd ht).ends fun _ => stays_finish.bind fun _ => stays_pure
    · exact .unexpected

theorem same_patternMembers {isFirst : Bool} (hs : s.IsFree) :
    Same (patternMembers d isFirst) (patternMembers d' isFirst) s := by
  simp only [patternMembers, ite_bind, unless_bind]
  refine .eaten (by decide) (fun _ _ ht => .pure ht) ?_
  refine (Same.ite (fun _ => .pure hs) fun _ => .expect (by decide)).bind fun _ t _ ht => ?_
  refine (Same.ite (fun _ => .pure ht) fun _ => .eat (by decide) ht).bind fun _ u _ hu => ?_
  refine .ite (fun _ => .pure hu) fun _ => .look stays_sees hu fun b hb => ?_
  obtain ⟨rfl, -⟩ := sees_eq_ok.mp hb
  refine .ite (fun hk => ?_) fun _ => ?_
  · refine (same_restOfBinding hu (eq_of_beq hk)).bind fun _ _ _ _ => ?_
    exact (Same.expect (by decide)).ends fun _ => stays_pure
  · refine (same_patternProperty hd hu).bind fun _ _ _ hv => ?_
    exact (same_ask hd hv rfl id).ends fun _ => stays_pure

theorem same_parameters (hs : s.IsFree) : Same (parameters d) (parameters d') s :=
  (same_ask hd hs rfl id).ends fun _ => stays_pure

theorem same_block {directives : Bool} (hs : s.IsFree) :
    Same (block d directives) (block d' directives) s :=
  .look stays_here hs fun _ _ => .expected (by decide) fun _ _ ht =>
    (same_ask hd ht rfl id).ends fun _ => stays_finish.bind fun _ => stays_pure

omit hd in
theorem same_functionBody {α : Type} {id : Option Identifier} {params : List Pattern}
    {generator arrow : Bool} {body body' : Parser α}
    (h : Same body body' (s.enterFunction generator)) :
    Same (functionBody id params generator arrow body)
      (functionBody id params generator arrow body') s := by
  refine .withinFunction (h.ends fun _ => stays_strict.bind fun strict => ?_)
  split
  · exact stays_checkTarget.bind fun _ => stays_checkTargets.bind fun _ => stays_pure
  · exact stays_pure.bind fun _ => stays_checkTargets.bind fun _ => stays_pure

theorem same_function {start : Place} {isDeclaration : Bool} (hs : s.IsFree) :
    Same (function d start isDeclaration) (function d' start isDeclaration) s := by
  simp only [function, ite_bind]
  refine (Same.eat (by decide) hs).bind fun generator t _ ht => ?_
  refine .look (.ite stays_pure stays_sees) ht fun _ _ => ?_
  refine (Same.ite (fun _ => same_identifier.map) fun _ => .pure ht).bind fun _ u _ hu => ?_
  refine .expected (by decide) fun _ _ hv => (same_parameters hd hv).bind fun _ w _ hw => ?_
  have hbody : (w.enterFunction generator).IsFree := hw
  refine (same_functionBody (same_block hd hbody)).ends fun _ => ?_
  exact stays_finish.bind fun _ => stays_pure

theorem same_method {generator : Bool} (hs : s.IsFree) :
    Same (method d generator) (method d' generator) s := by
  refine .look stays_here hs fun _ _ => .expected (by decide) fun _ _ ht => ?_
  refine (same_parameters hd ht).bind fun _ u _ hu => ?_
  have hbody : (u.enterFunction generator).IsFree := hu
  refine (same_functionBody (same_block hd hbody)).ends fun _ => ?_
  exact stays_finish.bind fun _ => stays_pure

theorem same_arrow {start : Place} {params : List Pattern} (hs : s.IsFree) :
    Same (arrow d start params) (arrow d' start params) s := by
  refine .expected (by decide) fun t h ht => ?_
  have hbody : (t.enterFunction false).IsFree := ht
  have hhosts : (t.enterFunction false).Hosts begins := hosts_of_takes (t := t) hs h rfl
  refine (same_functionBody (.look stays_sees hbody fun _ _ => ?_)).ends fun _ => ?_
  · refine .ite (fun _ => ?_) fun _ => ?_
    · exact (same_block hd hbody).ends fun _ => stays_pure
    · exact (same_value hd hbody hhosts).ends fun _ => stays_pure
  · exact stays_finish.bind fun _ => stays_pure

theorem same_expressionWith {noIn owned : Bool} {pending : Pending} (hs : s.IsFree)
    (hh : s.Hosts begins) :
    Same (expressionWith d noIn owned pending) (expressionWith d' noIn owned pending) s := by
  refine .look stays_here hs fun _ _ => (same_askOperand hd hs rfl hh).bind fun _ t _ ht => ?_
  refine .look stays_sees ht fun _ _ => .ite (fun _ => ?_) fun _ => .pure ht
  exact (same_ask hd ht rfl id).ends fun _ => stays_finish.bind fun _ => stays_pure

theorem same_expression {noIn : Bool} (hs : s.IsFree) (hh : s.Hosts begins) :
    Same (expression d noIn) (expression d' noIn) s :=
  (same_expressionWith hd hs hh).ends fun _ => stays_pure

theorem same_commaOperands {noIn owned : Bool} {pending : Pending} (hs : s.IsFree) :
    Same (commaOperands d noIn owned pending) (commaOperands d' noIn owned pending) s := by
  refine .eaten (by decide) (fun t h ht => ?_) (.pure hs)
  refine (same_askOperand hd ht rfl (hosts_of_takes hs h rfl)).bind fun _ _ _ hu => ?_
  exact (same_ask hd hu rfl id).ends fun _ => stays_pure

theorem same_yieldExpression {noIn : Bool} (hs : s.IsFree) (hw : s.isWord "yield" = true) :
    Same (yieldExpression d noIn) (yieldExpression d' noIn) s := by
  have hk := kind_of_isWord hw
  refine .look stays_here hs fun _ _ => (Same.advance (by simp [hk])).bind fun _ t ha ht => ?_
  have hled : t.Hosts begins := .inl (isLed_of_word hw (by decide) ha)
  refine .look stays_kind ht fun _ _ => .look stays_canInsertSemicolon ht fun _ _ => ?_
  refine .ite (fun _ => .of_stays ht (stays_finish.bind fun _ => stays_pure)) fun _ => ?_
  refine (Same.eat (by decide) ht).bind fun b u h hu => ?_
  have hhosts : u.Hosts begins := by
    rcases eat_eq_ok.mp h with ⟨-, h⟩ | ⟨-, -, rfl⟩
    · exact hosts_of_takes ht h rfl
    · exact hled
  exact (same_value hd hu hhosts).ends fun _ => stays_finish.bind fun _ => stays_pure

theorem same_unaryExpression (hs : s.IsFree) (hk : s.kind.isUnary = true) :
    Same (unaryExpression d) (unaryExpression d') s := by
  have hdot : s.kind ≠ .dot := by
    rintro hdot
    simp [hdot, TokenKind.isUnary] at hk
  refine .look stays_here hs fun _ _ => .token hs ((Same.advance hdot).bind fun _ t ha ht => ?_)
  have hhosts : t.Hosts begins := by
    by_cases hi : s.kind = .incDec
    · exact .inl (isLed_of_incDec hi ha)
    · exact .inl (hs.isLed_of_advance ha (TokenKind.beforeExpression_of_isUnary hk hi))
  refine (same_operand hd ht hhosts).ends fun argument => ?_
  refine .ite (stays_checkUpdated.bind fun _ => ?_) ?_
  · split
    · exact stays_finish.bind fun _ => stays_pure
    · exact stays_unexpected
  · split
    · refine stays_strict.bind fun _ => ?_
      split
      · exact stays_fail
      · exact stays_finish.bind fun _ => stays_pure
    · exact stays_fail

theorem same_leftHandSide {pending : Pending} (hs : s.IsFree) (hh : s.Hosts begins) :
    Same (leftHandSide d pending) (leftHandSide d' pending) s := by
  refine .look stays_here hs fun _ _ => (same_askOperand hd hs rfl hh).bind fun _ t _ ht => ?_
  exact .ite (fun _ => .pure ht) fun _ => (same_ask hd ht rfl id).ends fun _ => stays_pure

theorem same_unary {pending : Pending} (hs : s.IsFree) (hh : s.Hosts begins) :
    Same (unary d pending) (unary d' pending) s := by
  refine .look stays_here hs fun _ _ => .kind hs (.ite (fun hk => ?_) fun _ => ?_)
  · exact (same_unaryExpression hd hs hk).ends fun _ => stays_pure
  · refine (same_leftHandSide hd hs hh).bind fun _ t _ ht => .ite (fun _ => .pure ht) fun _ => ?_
    exact (same_trailingUpdate ht).ends fun _ => stays_pure

theorem same_operators {left : Expression} {start : Place} {floor : Nat} {noIn : Bool}
    (hs : s.IsFree) :
    Same (operators d left start floor noIn) (operators d' left start floor noIn) s := by
  refine .token hs ?_
  split
  · exact .pure hs
  · next strength hk =>
    have hbefore := TokenKind.beforeExpression_of_binaryStrength? hk
    have hdot := TokenKind.ne_dot_of_beforeExpression hbefore
    refine .ite (fun _ => .pure hs) fun _ => (Same.advance hdot).bind fun _ t ha ht => ?_
    refine .look stays_here ht fun _ _ => ?_
    refine (same_operand hd ht (.inl (hs.isLed_of_advance ha hbefore))).bind fun _ _ _ hu => ?_
    refine (same_ask hd hu rfl id).bind fun _ _ _ hv => .look stays_finish hv fun _ _ => ?_
    split
    · exact same_ask hd hv rfl id
    · exact same_ask hd hv rfl id
    · exact .of_stays hv stays_fail

theorem same_conditional {noIn : Bool} {pending : Pending} (hs : s.IsFree)
    (hh : s.Hosts begins) :
    Same (conditional d noIn pending) (conditional d' noIn pending) s := by
  have hbinary : Same (binary d noIn pending) (binary d' noIn pending) s := by
    refine .look stays_here hs fun _ _ => (same_askOperand hd hs rfl hh).bind fun _ t _ ht => ?_
    exact .ite (fun _ => .pure ht) fun _ => (same_ask hd ht rfl id).ends fun _ => stays_pure
  refine .look stays_here hs fun _ _ => hbinary.bind fun _ t _ ht => ?_
  refine .ite (fun _ => .pure ht) fun _ => ?_
  refine .eaten (by decide) (fun u h hu => ?_) (.pure ht)
  refine (same_value hd hu (hosts_of_takes ht h rfl)).bind fun _ _ _ hv => ?_
  refine .expected (by decide) fun w h hw => ?_
  refine (same_value hd hw (hosts_of_takes hv h rfl)).ends fun _ => ?_
  exact stays_finish.bind fun _ => stays_pure

theorem same_assignment {noIn owned : Bool} {outer : Pending} (hs : s.IsFree)
    (hh : s.Hosts begins) :
    Same (assignment d noIn owned outer) (assignment d' noIn owned outer) s := by
  simp only [assignment, ite_bind, when_bind]
  refine .look stays_get hs fun _ _ => .look stays_isContextual hs fun b hb => ?_
  obtain ⟨rfl, -⟩ := isContextual_eq_ok.mp hb
  refine .ite (fun hyield => ?_) fun _ => .look stays_here hs fun start _ => .kind hs ?_
  · have hw : s.isWord "yield" = true := (Bool.and_eq_true_iff.mp hyield).2
    exact (same_yieldExpression hd hs hw).ends fun _ => stays_pure
  -- The mark for an arrow function does not move the stream.
  have hmark : ∀ u t, (if (s.kind == .parenL || s.kind == .name) = true then
      modify fun s : ParseState => { s with arrowStart := some start.offset }
      else pure () : Parser PUnit) s = .ok u t → t.stream = s.stream := by
    intro u t h
    rcases ite_eq_ok.mp h with ⟨-, h⟩ | ⟨-, h⟩
    · rw [modify_eq_ok.mp h]
    · rw [(pure_eq_ok.mp h).2]
  refine (Same.of_isFree fun u t h => hs.of_stream_eq (hmark u t h)).bind fun u t h ht => ?_
  refine (same_conditional hd ht (hh.of_stream_eq (hmark u t h))).bind fun r v _ hv => ?_
  refine .kind hv (.ite (fun hk => .token hv ?_) fun _ => ?_)
  · have hbefore := TokenKind.beforeExpression_of_isAssignment hk
    split
    · exact .unexpected
    refine .look (.ite stays_lift stays_simpleTarget) hv fun _ _ => ?_
    refine .look stays_checkTarget hv fun _ _ => ?_
    refine (Same.advance (TokenKind.ne_dot_of_beforeExpression hbefore)).bind fun _ w ha hw => ?_
    refine (same_value hd hw (.inl (hv.isLed_of_advance ha hbefore))).ends fun _ => ?_
    exact stays_finish.bind fun _ => stays_pure
  · exact .of_stays hv (.bind (.ite stays_refuse stays_pure) fun _ => stays_pure)

theorem same_callArguments (hs : s.IsFree) (hh : s.Hosts begins) :
    Same (suffixes.callArguments d) (suffixes.callArguments d') s :=
  (same_askOperand hd hs rfl hh).ends fun _ => stays_refuse.bind fun _ => stays_pure

theorem same_suffixes {base : Expression} {start : Place} {noCalls : Bool} (hs : s.IsFree) :
    Same (suffixes d base start noCalls) (suffixes d' base start noCalls) s := by
  simp only [suffixes, ite_bind]
  refine .branch (fun t _ => ?_) (.eaten (by decide) (fun t h ht => ?_) ?_)
  · refine same_identifier.bind fun _ _ _ hu => .look stays_finish hu fun _ _ => ?_
    exact same_ask hd hu rfl id
  · refine (same_expression hd ht (hosts_of_takes hs h rfl)).bind fun _ _ _ _ => ?_
    refine .expected (by decide) fun _ _ hv => .look stays_finish hv fun _ _ => ?_
    exact same_ask hd hv rfl id
  · refine (Same.ite (fun _ => .pure hs) fun _ => .eat (by decide) hs).bind fun b t h ht => ?_
    have harguments : b = true → t.Hosts begins := by
      rintro rfl
      rcases ite_eq_ok.mp h with ⟨-, h⟩ | ⟨-, h⟩
      · cases (pure_eq_ok.mp h).1
      · exact hosts_of_eat hs h rfl
    refine .ite (fun hb => ?_) fun _ => .pure ht
    refine (same_callArguments hd ht (harguments hb)).bind fun _ _ _ hu => ?_
    exact .look stays_finish hu fun _ _ => same_ask hd hu rfl id

theorem same_spread {pending : Pending} (hs : s.IsFree) (hk : s.kind = .ellipsis) :
    Same (spread d pending) (spread d' pending) s := by
  refine .look stays_here hs fun _ _ => (Same.advance (by simp [hk])).bind fun _ t ha ht => ?_
  have hhosts : t.Hosts begins := hosts_of_takes hs ⟨hk, ha⟩ rfl
  exact (same_askOperand hd ht rfl hhosts).ends fun _ => stays_finish.bind fun _ => stays_pure

theorem same_elements {stop : TokenKind} {trailingComma holes isFirst : Bool} {pending : Pending}
    (hstop : (stop == .dot) = false) (hs : s.IsFree) (hh : isFirst = true → s.Hosts begins) :
    Same (elements d stop trailingComma holes isFirst pending)
      (elements d' stop trailingComma holes isFirst pending) s := by
  simp only [elements, ite_bind, unless_bind]
  have hne := ne_of_beq_false hstop
  have helement : ∀ t : ParseState, t.IsFree → t.Hosts begins →
      Same (elements.element d holes pending) (elements.element d' holes pending) t := by
    intro t ht hh
    simp only [elements.element, ite_bind]
    refine .look (.ite stays_sees stays_pure) ht fun _ _ => .ite (fun _ => .pure ht) fun _ => ?_
    refine .look stays_sees ht fun b hb => ?_
    obtain ⟨rfl, -⟩ := sees_eq_ok.mp hb
    refine .ite (fun hk => ?_) fun _ => ?_
    · exact (same_spread hd ht (eq_of_beq hk)).ends fun _ => stays_pure
    · exact (same_askOperand hd ht rfl hh).ends fun _ => stays_pure
  refine .eaten hne (fun _ _ ht => .pure ht) ?_
  refine (Same.ite (fun _ => .pure hs) fun _ => .expect (by decide)).bind fun _ t h ht => ?_
  have hhosts : t.Hosts begins := by
    rcases ite_eq_ok.mp h with ⟨hfirst, h⟩ | ⟨-, h⟩
    · exact (pure_eq_ok.mp h).2 ▸ hh hfirst
    · exact hosts_of_takes hs (expect_eq_ok.mp h) rfl
  refine (Same.ite (fun _ => .eat hne ht) fun _ => .pure ht).bind fun closed u h hu => ?_
  refine .ite (fun _ => .pure hu) fun hopen => ?_
  have hstays : u = t := by
    rcases ite_eq_ok.mp h with ⟨-, h⟩ | ⟨-, h⟩
    · rcases eat_eq_ok.mp h with ⟨hclosed, -⟩ | ⟨-, -, rfl⟩
      · exact absurd hclosed hopen
      · rfl
    · exact (pure_eq_ok.mp h).2
  refine (helement u hu (hstays ▸ hhosts)).bind fun _ _ _ hv => ?_
  exact (same_ask (g := .elements ..) hd hv hstop Bool.false_ne_true).ends fun _ => stays_pure

theorem same_parenthesized {isFirst : Bool} {pending : Pending} (hs : s.IsFree)
    (hh : isFirst = true → s.Hosts begins) :
    Same (parenthesized d isFirst pending) (parenthesized d' isFirst pending) s := by
  unfold parenthesized
  refine .look stays_sees hs fun _ _ => .ite (fun _ => .pure hs) fun _ => ?_
  extract_lets item item'
  have hitem : ∀ t : ParseState, t.IsFree → t.Hosts begins → Same (item ()) (item' ()) t := by
    intro t ht hh
    refine .look stays_sees ht fun b hb => ?_
    obtain ⟨rfl, -⟩ := sees_eq_ok.mp hb
    refine .ite (fun hk => ?_) fun _ => ?_
    · exact (same_restOfBinding ht (eq_of_beq hk)).ends fun _ => stays_pure
    · refine (same_askOperand hd ht rfl hh).bind fun _ _ _ hu => ?_
      refine (same_ask (g := .parenthesized ..) hd hu rfl Bool.false_ne_true).ends fun _ => ?_
      exact stays_pure
  refine .ite (fun hfirst => hitem s hs (hh hfirst)) fun _ => .expected (by decide) fun t h ht => ?_
  refine .look stays_sees ht fun _ _ => .ite (fun _ => ?_) fun _ => ?_
  · exact .bind_of_eq rfl fun _ _ h => absurd h unexpected_ne_ok
  · exact hitem t ht (hosts_of_takes hs h rfl)

theorem same_parenthesizedExpression {start : Place} {canBeArrow : Bool} (hs : s.IsFree) :
    Same (parenthesizedExpression d start canBeArrow)
      (parenthesizedExpression d' start canBeArrow) s := by
  simp only [parenthesizedExpression, ite_bind]
  refine .expected (by decide) fun t h ht => .look stays_here ht fun _ _ => ?_
  refine (same_askOperand hd ht rfl (hosts_of_takes hs h rfl)).bind fun _ _ _ hu => ?_
  refine .look stays_lastEnd hu fun _ _ => .expected (by decide) fun _ _ hv => ?_
  have hsees : Stays parenthesizedExpression.seesArrow :=
    stays_canInsertSemicolon.bind fun _ => stays_kind.bind fun _ => stays_pure
  refine .look (.ite hsees stays_pure) hv fun _ _ => .ite (fun _ => ?_) fun _ => ?_
  · refine .look stays_lift hv fun _ _ => .look stays_checkTargets hv fun _ _ => ?_
    exact same_arrow hd hv
  · refine .of_stays hv ?_
    split
    · refine stays_get.bind fun _ => ?_
      split <;> exact stays_fail
    · exact stays_fail
    · refine stays_refuse.bind fun _ => ?_
      split <;> exact stays_pure

theorem same_parenthesis {canBeArrow : Bool} (hs : s.IsFree) :
    Same (parenthesis d canBeArrow) (parenthesis d' canBeArrow) s := by
  have hparameters : Same (arrowParameters d) (arrowParameters d') s := by
    refine .expected (by decide) fun _ _ ht => (same_parameters hd ht).ends fun _ => ?_
    refine stays_canInsertSemicolon.bind fun _ => stays_kind.bind fun _ => ?_
    exact .ite (stays_unexpected.bind fun _ => stays_pure) stays_pure
  simp only [parenthesis, ite_bind]
  refine .look stays_here hs fun _ _ => ?_
  refine (Same.ite (fun _ => .attempt hs hparameters) fun _ => .pure hs).bind fun _ t _ ht => ?_
  split
  · exact same_arrow hd ht
  · exact same_parenthesizedExpression hd ht

theorem same_nameOrArrow {canBeArrow : Bool} (hs : s.IsFree) :
    Same (nameOrArrow d canBeArrow) (nameOrArrow d' canBeArrow) s := by
  refine .look stays_here hs fun _ _ => same_identifier.bind fun _ t _ ht => ?_
  refine .look stays_canInsertSemicolon ht fun _ _ => .look stays_kind ht fun _ _ => ?_
  exact .ite (fun _ => same_arrow hd ht) fun _ => .pure ht

theorem same_newExpression (hs : s.IsFree) (hk : s.kind = .keyword .new) :
    Same (newExpression d) (newExpression d') s := by
  simp only [newExpression, ite_bind]
  refine .look stays_here hs fun _ _ => (Same.advance (by simp [hk])).bind fun _ t ha ht => ?_
  have hhosts : t.Hosts begins := hosts_of_takes hs ⟨hk, ha⟩ rfl
  refine .look stays_here ht fun _ _ => (same_askOperand hd ht rfl hhosts).bind fun _ _ _ hu => ?_
  refine .look stays_refuse hu fun _ _ => (same_ask hd hu rfl id).bind fun _ v _ hv => ?_
  refine (Same.eat (by decide) hv).bind fun b w h hw => ?_
  have harguments : b = true → w.Hosts begins := by
    rintro rfl
    exact hosts_of_eat hv h rfl
  refine (Same.ite (fun h => same_callArguments hd hw (harguments h)) fun _ => .pure hw).ends ?_
  exact fun _ => stays_finish.bind fun _ => stays_pure

theorem same_chunks (hs : s.IsFree) : Same (chunks d) (chunks d') s := by
  refine .look stays_here hs fun _ _ => .token hs ?_
  split
  · next hk _ =>
    refine (Same.advance (by simp [ParseState.kind, hk])).bind fun _ t _ ht => ?_
    refine .look stays_sees ht fun _ _ => .look stays_finish ht fun _ _ => ?_
    refine .ite (fun _ => .pure ht) fun _ => .expected (by decide) fun _ h hu => ?_
    refine (same_expression hd hu (hosts_of_takes ht h rfl)).bind fun _ _ _ _ => ?_
    exact .expected (by decide) fun _ _ hw => (same_ask hd hw rfl id).ends fun _ => stays_pure
  · exact .unexpected

theorem same_template (hchunks : ∀ s r u, d .chunks s = .ok r u → u.kind = .backQuote)
    (hs : s.IsFree) : Same (template d) (template d') s := by
  refine .look stays_here hs fun _ _ => .expected (by decide) fun _ _ ht => ?_
  refine (same_ask hd ht rfl id).bind fun _ _ h _ => ?_
  refine (Same.advance (by simp [hchunks _ _ _ h])).ends fun _ => ?_
  exact stays_finish.bind fun _ => stays_pure

theorem same_shorthandProperty {start : Place} {id' : Identifier} {pending : Pending}
    (hs : s.IsFree) :
    Same (shorthandProperty d start id' pending) (shorthandProperty d' start id' pending) s := by
  refine .kind hs ?_
  split
  · exact .of_stays hs (stays_finish.bind fun _ => stays_pure)
  · exact .of_stays hs (stays_finish.bind fun _ => stays_pure)
  · next hk =>
    refine .look stays_here hs fun _ _ => (Same.advance (by simp [hk])).bind fun _ t ha ht => ?_
    have hhosts : t.Hosts begins := hosts_of_takes hs ⟨hk, ha⟩ rfl
    refine (same_askOperand hd ht rfl hhosts).ends fun _ => ?_
    exact stays_finish.bind fun _ => stays_finish.bind fun _ => stays_pure
  · exact .unexpected

theorem same_property {pending : Pending} (hs : s.IsFree) :
    Same (property d pending) (property d' pending) s := by
  simp only [property, ite_bind]
  refine .look stays_here hs fun _ _ => (Same.eat (by decide) hs).bind fun _ _ _ ht => ?_
  refine (same_propertyName hd ht).bind fun _ _ _ hu => .look stays_kind hu fun _ _ => ?_
  refine (Same.ite (fun _ => same_propertyName hd hu) fun _ => .pure hu).bind fun key v _ hv => ?_
  refine .look stays_kind hv fun _ _ => .ite (fun _ => ?_) fun _ => ?_
  · exact (same_method hd hv).ends fun _ => stays_finish.bind fun _ => stays_pure
  refine .eaten (by decide) (fun w h hw => ?_) ?_
  · refine (same_askOperand hd hw rfl (hosts_of_takes hv h rfl)).ends fun _ => ?_
    exact stays_finish.bind fun _ => stays_pure
  · split
    · exact same_shorthandProperty hd hv
    · exact .unexpected

theorem same_members {isFirst : Bool} {pending : Pending} (hs : s.IsFree) :
    Same (members d isFirst pending) (members d' isFirst pending) s := by
  have hmember : ∀ t : ParseState, t.IsFree →
      Same (members.member d pending) (members.member d' pending) t := by
    intro t ht
    refine .look stays_sees ht fun b hb => ?_
    obtain ⟨rfl, -⟩ := sees_eq_ok.mp hb
    refine .ite (fun hk => ?_) fun _ => same_property hd ht
    exact (same_spread hd ht (eq_of_beq hk)).ends fun _ => stays_pure
  simp only [members, ite_bind, unless_bind]
  refine .eaten (by decide) (fun _ _ ht => .pure ht) ?_
  refine (Same.ite (fun _ => .pure hs) fun _ => .expect (by decide)).bind fun _ t _ ht => ?_
  refine (Same.ite (fun _ => .pure ht) fun _ => .eat (by decide) ht).bind fun _ u _ hu => ?_
  refine .ite (fun _ => .pure hu) fun _ => (hmember u hu).bind fun _ _ _ hv => ?_
  exact (same_ask hd hv rfl id).ends fun _ => stays_pure

theorem same_primary {pending : Pending}
    (hchunks : ∀ s r u, d .chunks s = .ok r u → u.kind = .backQuote) (hs : s.IsFree) :
    Same (primary d pending) (primary d' pending) s := by
  refine .look stays_here hs fun _ _ => .look stays_get hs fun _ _ => .kind hs ?_
  split
  · exact (same_nameOrArrow hd hs).ends fun _ => stays_pure
  · next hk =>
    exact (Same.advance (by simp [hk])).ends fun _ => stays_finish.bind fun _ => stays_pure
  · exact same_literal.ends fun _ => stays_pure
  · exact same_literal.ends fun _ => stays_pure
  · exact same_literal.ends fun _ => stays_pure
  · exact same_literal.ends fun _ => stays_pure
  · exact same_literal.ends fun _ => stays_pure
  · exact same_literal.ends fun _ => stays_pure
  · exact (same_parenthesis hd hs).ends fun _ => stays_pure
  · next hk =>
    refine (Same.advance (by simp [hk])).bind fun _ t ha ht => ?_
    have hhosts : t.Hosts begins := hosts_of_takes hs ⟨hk, ha⟩ rfl
    refine (same_askOperand hd ht rfl hhosts).ends fun _ => stays_finish.bind fun _ => stays_pure
  · next hk =>
    refine (Same.advance (by simp [hk])).bind fun _ t _ ht => ?_
    exact (same_ask hd ht rfl id).ends fun _ => stays_finish.bind fun _ => stays_pure
  · next hk =>
    refine (Same.advance (by simp [hk])).bind fun _ t _ ht => ?_
    exact (same_function hd ht).ends fun _ => stays_pure
  · exact (same_template hd hchunks hs).ends fun _ => stays_pure
  · next hk => exact (same_newExpression hd hs hk).ends fun _ => stays_pure
  · exact .unexpected

end Rules

end Asking

end EcmaTree
