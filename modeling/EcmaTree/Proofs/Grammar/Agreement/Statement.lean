import EcmaTree.Proofs.Grammar.Agreement.Expression
import EcmaTree.Proofs.Grammar.Agreement.Progress

/-!
# Agreement of the rules for statements

A statement leaves at least one token behind, so the statements after it are worth less than
those it is the first of. A directive is one on both sides, because its literal starts where
the statement starts.
-/

namespace EcmaTree.Agreement

open EcmaTree.Parser EcmaTree.Grammar EcmaTree.Reading EcmaTree.Trail ParseState

variable {L : Likeness} {d d' : Descent} {m : Nat} {s : ParseState}

section Directives

variable {K : Correspondence} {r r' : Statement}

theorem directive?_eq (h : K.Nodes r r') : directive? r' = directive? r := by
  cases h with
  | expressionStatement hsp hvalue =>
    cases hvalue with
    | literal hlit =>
      have hiff := Correspondence.offset_eq_iff hlit.place.start hsp.start
      simp only [directive?, hlit.value_eq, hlit.raw_eq, beq_iff_eq, hiff]
    | _ => rfl
  | _ => rfl

theorem alike_markDirective {text : String} (h : K.Nodes r r') :
    K.Nodes (markDirective text r) (markDirective text r') := by
  cases h with
  | expressionStatement hsp hvalue => exact .expressionStatement hsp hvalue
  | _ =>
    constructor <;> assumption

theorem alike_toDeclaration {f f' : FunctionParts} (h : f.Alike K f') :
    K.Nodes f.toDeclaration f'.toDeclaration := by
  unfold FunctionParts.toDeclaration
  rw [h.generator_eq]
  exact .functionDeclaration h.place h.id (Node.alike_ofList h.params) h.body

end Directives

theorem agrees_semicolon : Agrees L Eq semicolon semicolon s := by
  unfold semicolon
  apply Agrees.eatElse (by decide)
  · intro t _ _
    exact agrees_pure rfl
  intro _
  apply Agrees.canInsertSemicolon
  apply Agrees.ite
  · intro _
    exact agrees_pure rfl
  · intro _
    exact agrees_unexpected

/-- A missing value is reported at the end of the target, which has been read. -/
theorem agrees_checkUninitialized {inFor : Bool} {kind : VariableKind} {target target' : Pattern}
    (htarget : L.Nodes target target') (hlast : s.stream.last.isSome = true) :
    Agrees L Eq (checkUninitialized inFor kind target) (checkUninitialized inFor kind target')
      s := by
  unfold checkUninitialized
  rw [htarget.isName_eq]
  apply Agrees.sees
  apply Agrees.isContextual
  apply Agrees.ite
  · intro _
    apply Agrees.ite
    · intro _
      exact agrees_unexpected.seq fun _ h => (unexpected_ne_ok h).elim
    intro _
    apply Agrees.ite
    · intro _
      exact agrees_pure rfl
    intro _
    apply Agrees.here
    intro place hplace
    exact .lastEnd hlast fun stop stop' hstop => agrees_fail hstop
  · intro _
    exact agrees_pure rfl

theorem agrees_seesLet : Agrees L Eq seesLet seesLet s := by
  unfold seesLet
  apply Agrees.isContextual
  apply Agrees.ite
  · intro hw
    have hk : s.kind ≠ .eof := by
      rintro heof
      simp [ParseState.isWord, heof] at hw
    refine (agrees_peekKind hk).bind ?_
    rintro kind _ t rfl _
    split <;> exact agrees_pure rfl
  · intro _
    exact agrees_pure rfl

theorem agrees_declarationKind? : Agrees L Eq declarationKind? declarationKind? s := by
  unfold declarationKind?
  apply Agrees.kind
  split
  · exact agrees_pure rfl
  · exact agrees_pure rfl
  · refine agrees_seesLet.bind ?_
    rintro isLet _ t rfl _
    exact .ite (fun _ => agrees_pure rfl) fun _ => agrees_pure rfl
  · exact agrees_pure rfl

theorem agrees_jumpStatement {jump : Jump} (hk : s.kind ≠ .eof) :
    Agrees L L.Nodes (jumpStatement jump) (jumpStatement jump) s := by
  have hlabel : ∀ {t : ParseState}, Agrees L (Option.Rel (Identifier.Alike L.Spans))
      jumpStatement.jumpLabel jumpStatement.jumpLabel t := by
    intro t
    unfold jumpStatement.jumpLabel
    apply Agrees.eatElse (by decide)
    · intro u _ _
      exact agrees_pure .none
    intro _
    apply Agrees.canInsertSemicolon
    apply Agrees.ite
    · intro _
      exact agrees_pure .none
    intro _
    apply Agrees.seesElse
    · intro _
      refine agrees_identifier.bind fun id id' u hid _ => ?_
      exact agrees_semicolon.seq fun _ _ => agrees_pure (.some hid)
    · intro _
      exact agrees_unexpected
  unfold jumpStatement
  apply Agrees.here
  intro start hstart
  apply Agrees.advance hk
  intro s₁ _ _
  refine hlabel.bind fun label label' s₂ hlabel _ => ?_
  apply Agrees.get
  intro s' hs
  have hname : label'.map Identifier.name = label.map Identifier.name :=
    map_eq_of_rel (fun _ _ h => h.name_eq) hlabel
  dsimp only
  rw [(L.scope hs).labels_eq, hname]
  apply Agrees.ite
  · intro _
    refine .finish hstart fun sp sp' hsp => ?_
    cases jump with
    | «break» => exact agrees_pure (.breakStatement hsp hlabel)
    | «continue» => exact agrees_pure (.continueStatement hsp hlabel)
  · intro _
    exact agrees_fail (L.stop_of_start hstart)

theorem agrees_obeyDirective {text : String} :
    Agrees L Eq (obeyDirective text) (obeyDirective text) s := by
  apply agrees_modify
  intro s' hs
  split
  · exact L.rescope hs (L.scope hs).turnStrict
  · exact hs

theorem agrees_emptyStatement (hk : s.kind ≠ .eof) :
    Agrees L L.Nodes emptyStatement emptyStatement s := by
  unfold emptyStatement
  apply Agrees.here
  intro start hstart
  apply Agrees.advance hk
  intro t _ _
  exact .finish hstart fun sp sp' hsp => agrees_pure (.emptyStatement hsp)

theorem agrees_seesForEach : Agrees L Eq seesForEach seesForEach s :=
  .sees (.isContextual (agrees_pure rfl))

theorem ne_eof_of_seesForEach (h : (s.kind == .keyword .in || s.isWord "of") = true) :
    s.kind ≠ .eof := by
  rintro he
  simp [he, ParseState.isWord] at h

section Rules

/- Answers follow their token streams, and on goals worth less than `m` the descents agree. -/
variable (ht : ∀ g s r u, d g s = .ok r u → g.IsBounded → g.Traces s u)
  (hd : ∀ {g g' : Goal} {R : g.Result → g'.Result → Prop} {s : ParseState},
    Goal.Alike L.toCorrespondence g g' R → 8 * s.unread + g.rank < m →
      Agrees L R (d g) (d' g') s)

include hd ht

omit ht in
/-- Statements; `hs` says that a statement leaves a token behind. -/
theorem agrees_statements {inPrologue : Bool} {stop : TokenKind}
    (hs : ∀ {r t}, s.kind ≠ .eof → d .statement s = .ok r t → t.unread < s.unread)
    (h : 8 * s.unread + 4 ≤ m) :
    Agrees L (List.Forall₂ L.Nodes) (statements d inPrologue stop)
      (statements d' inPrologue stop) s := by
  simp only [statements, unless_bind]
  apply Agrees.seesElse
  · intro hk
    have hleave : Agrees L Eq (if (stop == .eof) = true then pure () else advance)
        (if (stop == .eof) = true then pure () else advance) s := by
      apply Agrees.ite
      · intro _
        exact agrees_pure rfl
      · intro hstop
        exact agrees_advance fun he => hstop (beq_iff_eq.mpr (hk ▸ he))
    exact hleave.seq fun _ _ => agrees_pure .nil
  intro _
  apply Agrees.seesElse
  · intro _
    exact agrees_unexpected
  intro hk
  refine (hd .statement (show 8 * s.unread + 3 < m by omega)).bind ?_
  intro statement statement' s₁ hstatement hrun
  have hlt := hs hk hrun
  have hrest : ∀ {t : ParseState} {inPrologue : Bool}, t.unread = s₁.unread →
      Agrees L (List.Forall₂ L.Nodes) (d (.statements inPrologue stop))
        (d' (.statements inPrologue stop)) t := by
    intro t inPrologue heq
    exact agrees_goal hd .statements (by omega)
  rw [directive?_eq hstatement]
  split
  · refine agrees_obeyDirective.seq fun s₂ hobey => ?_
    have h₂ : s₂.unread = s₁.unread := by
      rw [obeyDirective_eq_ok.mp hobey, unread, stream_obeyed]
    refine (hrest h₂).bind fun rest rest' t hmore _ => ?_
    exact agrees_pure (.cons (alike_markDirective hstatement) hmore)
  · refine (hrest rfl).bind fun rest rest' t hmore _ => ?_
    exact agrees_pure (.cons hstatement hmore)

theorem agrees_declarator {inFor : Bool} {kind : VariableKind} (h : 8 * s.unread ≤ m) :
    Agrees L L.Nodes (declarator d inFor kind) (declarator d' inFor kind) s := by
  unfold declarator
  apply Agrees.here
  intro start hstart
  refine (agrees_bindingAtom hd h).bind fun target target' s₁ htarget hrun => ?_
  have hread := of_bindingAtom hrun
  have hfollows := follows_of_bindingAtom ht hread
  have hlt := shortens_of_bindingAtom ht hread
  refine (agrees_checkTarget htarget).seq fun s₂ hc => ?_
  obtain ⟨-, rfl⟩ := checkTarget_eq_ok.mp hc
  apply Agrees.eatElse (by decide)
  · intro s₃ _ hlt'
    refine (agrees_value hd (by omega)).bind fun init init' t hinit _ => ?_
    exact .finish hstart fun sp sp' hsp => agrees_pure (.declarator hsp htarget (.present hinit))
  · intro _
    have hlast := last_isSome_of_follows hfollows hlt
    refine (agrees_checkUninitialized htarget hlast).seq fun _ _ => ?_
    exact .finish hstart fun sp sp' hsp => agrees_pure (.declarator hsp htarget .absent)

theorem agrees_declarators {inFor : Bool} {kind : VariableKind} (h : 8 * s.unread ≤ m) :
    Agrees L (List.Forall₂ L.Nodes) (declarators d inFor kind) (declarators d' inFor kind) s := by
  unfold declarators
  refine (agrees_declarator ht hd h).bind fun first first' s₁ hfirst hrun => ?_
  have h₁ := unread_le_of_follows (follows_of_declaratorRead ht (of_declarator hrun))
  apply Agrees.eatElse (by decide)
  · intro s₂ _ hlt
    refine (agrees_goal hd .declarators (by omega)).bind fun rest rest' t hrest _ => ?_
    exact agrees_pure (.cons hfirst hrest)
  · intro _
    exact agrees_pure (.cons hfirst .nil)

omit ht in
theorem agrees_declarationStatement {kind : VariableKind} (hk : s.kind ≠ .eof)
    (h : 8 * s.unread ≤ m) :
    Agrees L L.Nodes (declarationStatement d kind) (declarationStatement d' kind) s := by
  unfold declarationStatement
  apply Agrees.here
  intro start hstart
  apply Agrees.advance hk
  intro s₁ _ hlt
  refine (agrees_goal hd .declarators (by omega)).bind fun list list' t hlist _ => ?_
  refine agrees_semicolon.seq fun _ _ => .finish hstart fun sp sp' hsp => ?_
  exact agrees_pure (.declarationStatement (.declaration hsp (Node.alike_ofList hlist)))

theorem agrees_returnStatement {options options' : ParseOptions} (hk : s.kind ≠ .eof)
    (h : 8 * s.unread ≤ m) (ho : Loosened L.Lenient (!options.allowReturnOutsideFunction)
      (!options'.allowReturnOutsideFunction)) :
    Agrees L L.Nodes (returnStatement d options) (returnStatement d' options') s := by
  unfold returnStatement
  apply Agrees.here
  intro start hstart
  apply Agrees.get
  intro s' hs
  have hallowed : Loosened L.Lenient
      (!s.scope.inFunction && !options.allowReturnOutsideFunction)
      (!s'.scope.inFunction && !options'.allowReturnOutsideFunction) := by
    rw [(L.scope hs).inFunction_eq]
    exact ho.and
  apply Agrees.iteLoosened hallowed
  · exact agrees_fail (L.stop_of_start hstart)
  apply Agrees.advance hk
  intro s₁ _ hlt
  have hends : Agrees L Eq returnStatement.endsEmpty returnStatement.endsEmpty s₁ := by
    unfold returnStatement.endsEmpty
    apply Agrees.eatElse (by decide)
    · intro t _ _
      exact agrees_pure rfl
    · intro _
      exact .canInsertSemicolon_self
  refine hends.bind ?_
  rintro isEmpty _ s₂ rfl he
  apply Agrees.ite
  · intro _
    exact .finish hstart fun sp sp' hsp => agrees_pure (.returnStatement hsp .absent)
  · intro hempty
    obtain rfl : s₂ = s₁ := by
      simp [returnStatement.endsEmpty] at he
      grind
    refine (agrees_expression ht hd (by omega)).bind fun argument argument' t hargument _ => ?_
    refine agrees_semicolon.seq fun _ _ => .finish hstart fun sp sp' hsp => ?_
    exact agrees_pure (.returnStatement hsp (.present hargument))

theorem agrees_headExpression (h : 8 * s.unread ≤ m) :
    Agrees L L.Nodes (headExpression d) (headExpression d') s := by
  unfold headExpression
  apply Agrees.expect (by decide)
  intro s₁ _ hlt
  refine (agrees_expression ht hd (by omega)).bind fun value value' t hvalue _ => ?_
  exact (Agrees.expect_self (by decide)).seq fun _ _ => agrees_pure hvalue

theorem agrees_ifStatement (hk : s.kind ≠ .eof) (h : 8 * s.unread ≤ m) :
    Agrees L L.Nodes (ifStatement d) (ifStatement d') s := by
  simp only [ifStatement, ite_bind]
  apply Agrees.here
  intro start hstart
  apply Agrees.advance hk
  intro s₁ _ hlt
  refine (agrees_headExpression ht hd (by omega)).bind fun test test' s₂ htest hrun => ?_
  have h₂ := unread_le_of_follows (follows_of_headExpression ht hrun)
  refine (agrees_goal hd .statement (by omega)).bind fun consequent consequent' s₃ hthen hc => ?_
  have h₃ := unread_le_of_follows (follows_of_goal ht hc trivial)
  apply Agrees.eat (by decide)
  · intro s₄ _ hlt'
    have helse : Agrees L L.Nodes (Node.present <$> d .statement) (Node.present <$> d' .statement)
        s₄ :=
      (agrees_goal hd .statement (by omega)).map fun _ _ => .present
    refine helse.bind fun alternate alternate' t halternate _ => ?_
    exact .finish hstart fun sp sp' hsp => agrees_pure (.ifStatement hsp htest hthen halternate)
  · intro _
    exact .finish hstart fun sp sp' hsp => agrees_pure (.ifStatement hsp htest hthen .absent)

omit ht in
theorem agrees_loopBody (h : 8 * s.unread + 4 < m) :
    Agrees L L.Nodes (loopBody d) (loopBody d') s :=
  .withLabel (agrees_goal hd .statement h)

theorem agrees_whileStatement (hk : s.kind ≠ .eof) (h : 8 * s.unread ≤ m) :
    Agrees L L.Nodes (whileStatement d) (whileStatement d') s := by
  unfold whileStatement
  apply Agrees.here
  intro start hstart
  apply Agrees.advance hk
  intro s₁ _ hlt
  refine (agrees_headExpression ht hd (by omega)).bind fun test test' s₂ htest hrun => ?_
  have h₂ := unread_le_of_follows (follows_of_headExpression ht hrun)
  refine (agrees_loopBody hd (by omega)).bind fun body body' t hbody _ => ?_
  exact .finish hstart fun sp sp' hsp => agrees_pure (.whileStatement hsp htest hbody)

theorem agrees_optionalExpression {stop : TokenKind} (h : 8 * s.unread + 2 < m) :
    Agrees L L.Nodes (optionalExpression d stop) (optionalExpression d' stop) s := by
  unfold optionalExpression
  apply Agrees.seesElse
  · intro _
    exact agrees_pure .absent
  · intro _
    exact (agrees_expression ht hd h).bind fun _ _ _ hvalue _ => agrees_pure (.present hvalue)

theorem agrees_forParts {start start' : Place} {init init' : Node (.option .forInit)}
    (hstart : L.Start start start') (hinit : L.Nodes init init') (h : 8 * s.unread ≤ m) :
    Agrees L L.Nodes (forParts d start init) (forParts d' start' init') s := by
  unfold forParts
  apply Agrees.expect (by decide)
  intro s₁ _ hlt
  refine (agrees_optionalExpression ht hd (by omega)).bind fun test test' s₂ htest hrun => ?_
  have h₂ := unread_le_of_follows (follows_of_optionalExpression ht (of_optionalExpression hrun))
  apply Agrees.expect (by decide)
  intro s₃ _ hlt'
  refine (agrees_optionalExpression ht hd (by omega)).bind fun step step' s₄ hstep hrun => ?_
  have h₄ := unread_le_of_follows (follows_of_optionalExpression ht (of_optionalExpression hrun))
  apply Agrees.expect (by decide)
  intro s₅ _ hlt''
  refine (agrees_loopBody hd (by omega)).bind fun body body' t hbody _ => ?_
  exact .finish hstart fun sp sp' hsp => agrees_pure (.forStatement hsp hinit htest hstep hbody)

theorem agrees_forEach {start start' : Place} {left left' : Node .forTarget}
    (hstart : L.Start start start') (hleft : L.Nodes left left') (hk : s.kind ≠ .eof)
    (h : 8 * s.unread ≤ m) :
    Agrees L L.Nodes (forEach d start left) (forEach d' start' left') s := by
  simp only [forEach, ite_bind]
  apply Agrees.sees
  apply Agrees.advance hk
  intro s₁ _ hlt
  generalize (s.kind == .keyword .in) = overKeys
  have hvalues : Agrees L L.Nodes (if overKeys = true then expression d false else d.value false)
      (if overKeys = true then expression d' false else d'.value false) s₁ :=
    .ite (fun _ => agrees_expression ht hd (by omega)) fun _ => agrees_value hd (by omega)
  refine hvalues.bind fun right right' s₂ hright hrun => ?_
  have h₂ : s₂.unread ≤ s₁.unread := by
    rcases ite_eq_ok.mp hrun with ⟨-, hrun⟩ | ⟨-, hrun⟩
    · exact unread_le_of_follows (follows_of_expression ht hrun)
    · exact unread_le_of_follows (follows_of_value ht hrun)
  apply Agrees.expect (by decide)
  intro s₃ _ hlt'
  refine (agrees_loopBody hd (by omega)).bind fun body body' t hbody _ => ?_
  refine .finish hstart fun sp sp' hsp => ?_
  cases overKeys with
  | true => exact agrees_pure (.forInStatement hsp hleft hright hbody)
  | false => exact agrees_pure (.forOfStatement hsp hleft hright hbody)

theorem agrees_forDeclaration {start start' : Place} {kind : VariableKind}
    (hstart : L.Start start start') (hk : s.kind ≠ .eof) (h : 8 * s.unread ≤ m) :
    Agrees L L.Nodes (forDeclaration d start kind) (forDeclaration d' start' kind) s := by
  unfold forDeclaration
  apply Agrees.here
  intro declarationStart hdeclarationStart
  apply Agrees.advance hk
  intro s₁ _ hlt
  refine (agrees_goal hd .declarators (by omega)).bind fun list list' s₂ hlist hrun => ?_
  have h₂ := unread_le_of_follows (follows_of_goal ht hrun trivial)
  refine .finish hdeclarationStart fun sp sp' hsp => ?_
  have hdeclaration : L.Nodes (.declaration sp kind (.ofList list))
      (.declaration sp' kind (.ofList list')) := .declaration hsp (Node.alike_ofList hlist)
  refine agrees_seesForEach.bind ?_
  rintro isEach _ s₃ rfl hs
  obtain ⟨rfl, rfl⟩ := seesForEach_eq_ok.mp hs
  rw [hlist.length_eq]
  apply Agrees.ite
  · intro hb
    rw [Bool.and_eq_true] at hb
    exact agrees_forEach ht hd hstart (.targetDeclaration hdeclaration)
      (ne_eof_of_seesForEach hb.2) (by omega)
  · intro _
    exact agrees_forParts ht hd hstart (.present (.initDeclaration hdeclaration)) (by omega)

theorem agrees_forExpression {start start' : Place} (hstart : L.Start start start')
    (h : 8 * s.unread + 2 < m) :
    Agrees L L.Nodes (forExpression d start) (forExpression d' start') s := by
  unfold forExpression
  refine (agrees_expressionWith ht hd .none h).bind ?_
  rintro ⟨init, pending⟩ ⟨init', pending'⟩ s₁ ⟨hinit, hpending⟩ hrun
  have h₁ := unread_le_of_follows (follows_of_expressionWith ht (of_expressionWith hrun))
  refine agrees_seesForEach.bind ?_
  rintro isEach _ s₂ rfl hs
  obtain ⟨rfl, rfl⟩ := seesForEach_eq_ok.mp hs
  apply Agrees.ite
  · intro hb
    refine (agrees_lift (hinit.convert false)).bind fun target target' s₃ htarget hrun => ?_
    obtain ⟨-, rfl⟩ := lift_eq_ok.mp hrun
    refine (agrees_checkTarget htarget).seq fun s₄ hc => ?_
    obtain ⟨-, rfl⟩ := checkTarget_eq_ok.mp hc
    exact agrees_forEach ht hd hstart (.targetPattern htarget) (ne_eof_of_seesForEach hb) (by omega)
  · intro _
    refine (agrees_refuse hpending).seq fun s₃ hp => ?_
    obtain ⟨-, rfl⟩ := refuse_eq_ok.mp hp
    exact agrees_forParts ht hd hstart (.present (.initExpression hinit)) (by omega)

theorem agrees_forStatement (hk : s.kind ≠ .eof) (h : 8 * s.unread ≤ m) :
    Agrees L L.Nodes (forStatement d) (forStatement d') s := by
  unfold forStatement
  apply Agrees.here
  intro start hstart
  apply Agrees.advance hk
  intro s₁ _ hlt
  apply Agrees.expect (by decide)
  intro s₂ _ hlt'
  apply Agrees.seesElse
  · intro _
    exact agrees_forParts ht hd hstart .absent (by omega)
  intro _
  refine agrees_declarationKind?.bind ?_
  rintro kind _ s₃ rfl hkind
  obtain ⟨rfl, hb⟩ := of_declarationKind? hkind
  split
  · exact agrees_forDeclaration ht hd hstart (ne_eof_of_begins (hb _ rfl)) (by omega)
  · exact agrees_forExpression ht hd hstart (by omega)

theorem agrees_throwStatement (hk : s.kind ≠ .eof) (h : 8 * s.unread ≤ m) :
    Agrees L L.Nodes (throwStatement d) (throwStatement d') s := by
  unfold throwStatement
  apply Agrees.here
  intro start hstart
  apply Agrees.advance hk
  intro s₁ hfollows hlt
  apply Agrees.afterLineBreak
  apply Agrees.ite
  · intro _
    have hlast := last_isSome_of_follows hfollows hlt
    exact .lastEnd hlast fun stop stop' hstop => agrees_fail hstop
  · intro _
    refine (agrees_expression ht hd (by omega)).bind fun argument argument' t hargument _ => ?_
    refine agrees_semicolon.seq fun _ _ => .finish hstart fun sp sp' hsp => ?_
    exact agrees_pure (.throwStatement hsp hargument)

theorem agrees_catchClause (hk : s.kind ≠ .eof) (h : 8 * s.unread ≤ m) :
    Agrees L L.Nodes (catchClause d) (catchClause d') s := by
  unfold catchClause
  apply Agrees.here
  intro start hstart
  apply Agrees.advance hk
  intro s₁ _ hlt
  apply Agrees.expect (by decide)
  intro s₂ _ hlt'
  refine (agrees_bindingAtom hd (by omega)).bind fun param param' s₃ hparam hrun => ?_
  have h₃ := unread_le_of_follows (follows_of_bindingAtom ht (of_bindingAtom hrun))
  refine (agrees_checkTargets (.cons hparam .nil) (.same _)).seq fun s₄ hc => ?_
  obtain ⟨-, rfl⟩ := checkTargets_eq_ok.mp hc
  apply Agrees.expect (by decide)
  intro s₅ _ hlt''
  refine (agrees_block hd (by omega)).bind fun body body' t hbody _ => ?_
  exact .finish hstart fun sp sp' hsp => agrees_pure (.handler hsp hparam hbody)

/-- The clause that catches, if there is one. -/
theorem agrees_catchIf (h : 8 * s.unread ≤ m) :
    Agrees L (Option.Rel L.Nodes)
      (if (s.kind == .keyword .catch) = true then some <$> catchClause d else pure none)
      (if (s.kind == .keyword .catch) = true then some <$> catchClause d' else pure none) s := by
  apply Agrees.ite
  · intro hcatch
    have hk : s.kind ≠ .eof := by simp [beq_iff_eq.mp hcatch]
    exact (agrees_catchClause ht hd hk h).map fun _ _ => .some
  · intro _
    exact agrees_pure .none

omit hd in
theorem unread_le_of_catchIf {t : ParseState} {clause : Option (Node .handler)}
    (h : (if (s.kind == .keyword .catch) = true then some <$> catchClause d else pure none) s =
      .ok clause t) : t.unread ≤ s.unread := by
  rcases ite_eq_ok.mp h with ⟨hcatch, h⟩ | ⟨-, h⟩
  · obtain ⟨clause, hclause, -⟩ := map_eq_ok.mp h
    have hk : s.kind ≠ .eof := by simp [beq_iff_eq.mp hcatch]
    exact unread_le_of_follows (follows_of_passes hk (passes_of_catchClause ht hclause))
  · obtain ⟨-, rfl⟩ := pure_eq_ok.mp h
    exact Nat.le_refl _

omit ht hd in
/-- A try statement has a clause that catches or one that is run in any case. -/
theorem agrees_tried {start start' : Place} {body body' : Block}
    {handler handler' : Option (Node .handler)} {finalizer finalizer' : Option Block}
    (hstart : L.Start start start') (hbody : L.Nodes body body')
    (hhandler : Option.Rel L.Nodes handler handler')
    (hfinalizer : Option.Rel L.Nodes finalizer finalizer') :
    Agrees L L.Nodes
      (if (handler.isNone && finalizer.isNone) = true then fail .missingHandler start
        else do
          return .tryStatement (← finish start) body (.ofOption handler) (.ofOption finalizer))
      (if (handler'.isNone && finalizer'.isNone) = true then fail .missingHandler start'
        else do
          return .tryStatement (← finish start') body' (.ofOption handler') (.ofOption finalizer'))
      s := by
  have hnone : (handler'.isNone && finalizer'.isNone) = (handler.isNone && finalizer.isNone) := by
    cases hhandler <;> cases hfinalizer <;> rfl
  rw [hnone]
  apply Agrees.ite
  · intro _
    exact agrees_fail (L.stop_of_start hstart)
  · intro _
    refine .finish hstart fun sp sp' hsp => agrees_pure (.tryStatement hsp hbody ?_ ?_)
    · exact Node.alike_ofOption hhandler
    · exact Node.alike_ofOption hfinalizer

theorem agrees_tryStatement (hk : s.kind ≠ .eof) (h : 8 * s.unread ≤ m) :
    Agrees L L.Nodes (tryStatement d) (tryStatement d') s := by
  simp only [tryStatement, ite_bind]
  apply Agrees.here
  intro start hstart
  apply Agrees.advance hk
  intro s₁ _ hlt
  refine (agrees_block hd (by omega)).bind fun body body' s₂ hbody hb => ?_
  have h₂ := unread_le_of_follows (follows_of_block ht hb)
  apply Agrees.sees
  refine (agrees_catchIf ht hd (by omega)).bind fun handler handler' s₃ hhandler hrun => ?_
  have h₃ := unread_le_of_catchIf ht hrun
  apply Agrees.eat (by decide)
  · intro s₄ _ hlt'
    have hfinally : Agrees L (Option.Rel L.Nodes) (some <$> block d false)
        (some <$> block d' false) s₄ :=
      (agrees_block hd (by omega)).map fun _ _ => .some
    exact hfinally.bind fun _ _ _ hfinalizer _ =>
      agrees_tried hstart hbody hhandler hfinalizer
  · intro _
    exact agrees_tried hstart hbody hhandler .none

omit ht in
theorem agrees_labeledStatement {start start' : Place} {label label' : Identifier}
    (hstart : L.Start start start') (hlabel : label.Alike L.Spans label') (hk : s.kind ≠ .eof)
    (h : 8 * s.unread ≤ m) :
    Agrees L L.Nodes (labeledStatement d start label) (labeledStatement d' start' label') s := by
  unfold labeledStatement
  rw [hlabel.name_eq]
  apply Agrees.get
  intro s' hs
  rw [(L.scope hs).labels_eq]
  apply Agrees.ite
  · intro _
    exact agrees_fail (L.stop_of_start hlabel.place.start)
  intro _
  apply Agrees.advance hk
  intro s₁ _ hlt
  apply Agrees.kind
  have hbody : 8 * s₁.unread + 4 < m := by omega
  refine (Agrees.withLabel (agrees_goal hd .statement hbody)).bind fun body body' t hbody _ => ?_
  exact .finish hstart fun sp sp' hsp => agrees_pure (.labeledStatement hsp hlabel hbody)

theorem agrees_expressionStatement (h : 8 * s.unread + 2 < m) :
    Agrees L L.Nodes (expressionStatement d) (expressionStatement d') s := by
  unfold expressionStatement
  apply Agrees.here
  intro start hstart
  apply Agrees.sees
  refine (agrees_expression ht hd h).bind fun value value' s₁ hvalue hrun => ?_
  have h₁ := unread_le_of_follows (follows_of_expression ht hrun)
  apply Agrees.sees
  generalize hc : (s.kind == .name && s₁.kind == .colon) = isLabel
  split
  · have hk : s₁.kind ≠ .eof := by
      rintro heof
      simp [heof] at hc
    cases hvalue with
    | identifier hid => exact agrees_labeledStatement hd hstart hid hk (by omega)
  · rename_i hno
    split
    · cases hvalue with
      | identifier => exact (hno _ rfl rfl).elim
    · refine agrees_semicolon.seq fun _ _ => .finish hstart fun sp sp' hsp => ?_
      exact agrees_pure (.expressionStatement hsp hvalue)

theorem agrees_functionStatement (hk : s.kind ≠ .eof) (h : 8 * s.unread ≤ m) :
    Agrees L L.Nodes (functionStatement d) (functionStatement d') s := by
  unfold functionStatement
  apply Agrees.here
  intro start hstart
  apply Agrees.advance hk
  intro s₁ _ hlt
  refine (agrees_function ht hd hstart (by omega)).bind fun f f' t hf _ => ?_
  exact agrees_pure (alike_toDeclaration hf)

theorem agrees_statement {options options' : ParseOptions} (h : 8 * s.unread + 2 < m)
    (ho : Loosened L.Lenient (!options.allowReturnOutsideFunction)
      (!options'.allowReturnOutsideFunction)) :
    Agrees L L.Nodes (statement d options) (statement d' options') s := by
  unfold statement
  refine agrees_declarationKind?.bind ?_
  rintro kind _ s₁ rfl hkind
  obtain ⟨rfl, hb⟩ := of_declarationKind? hkind
  split
  · exact agrees_declarationStatement hd (ne_eof_of_begins (hb _ rfl)) (by omega)
  apply Agrees.kind
  split <;> rename_i hk
  · exact (agrees_block hd (by omega)).bind fun _ _ _ hb _ => agrees_pure (.blockStatement hb)
  · exact agrees_emptyStatement (by simp [hk])
  · exact agrees_functionStatement ht hd (by simp [hk]) (by omega)
  · exact agrees_returnStatement ht hd (by simp [hk]) (by omega) ho
  · exact agrees_ifStatement ht hd (by simp [hk]) (by omega)
  · exact agrees_whileStatement ht hd (by simp [hk]) (by omega)
  · exact agrees_forStatement ht hd (by simp [hk]) (by omega)
  · exact agrees_jumpStatement (by simp [hk])
  · exact agrees_jumpStatement (by simp [hk])
  · exact agrees_throwStatement ht hd (by simp [hk]) (by omega)
  · exact agrees_tryStatement ht hd (by simp [hk]) (by omega)
  · exact agrees_expressionStatement ht hd h

end Rules

end EcmaTree.Agreement
