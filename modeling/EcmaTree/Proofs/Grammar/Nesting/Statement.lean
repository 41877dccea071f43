import EcmaTree.Proofs.Grammar.Nesting.Primary

/-!
# Spans of statements

Most statements begin with a word, and the semicolon after them, where there is one, is a part of
their span. The parts of a `for` are read before its kind is known, so the rules for the kinds are
told what has been read after the word.
-/

namespace EcmaTree.Nesting

open EcmaTree.Parser EcmaTree.Grammar EcmaTree.Reading Node TokenStream

variable {text : List Char} {d : Descent} {s t u first : ParseState}

theorem isWide_of_isWord {w : String} (h : s.isWord w = true) : isWide s.kind = true := by
  simp only [ParseState.isWord, Bool.and_eq_true, beq_iff_eq] at h
  exact h.1 ▸ rfl

theorem isWide_of_begins {kind : VariableKind} (h : BeginsDeclaration kind s) :
    isWide s.kind = true := by
  cases kind with
  | «var» | const => exact congrArg isWide h
  | «let» => exact isWide_of_isWord h.1

/-- Whether a statement is a directive does not matter for where it lies. -/
theorem covers_markDirective {directive : String} {statement : Statement}
    (isDirective : directive? statement = some directive)
    (h : Covers text s.stream u.stream [.node statement]) :
    Covers text s.stream u.stream [.node (markDirective directive statement)] := by
  unfold directive? at isDirective
  split at isDirective
  · rename_i span lit earlier
    refine Covers.exchange (n := .expressionStatement span (.literal lit) earlier) rfl ?_ h
    intro hall
    refine allNested_of_children ?_ fun m hm => hall.child hm
    exact hall.here.congr rfl rfl rfl id
  · cases isDirective

theorem covers_jumpStatement {jump : Jump} {r : Statement} (hk : isWide s.kind = true)
    (h : jumpStatement jump s = .ok r u) : Covers text s.stream u.stream [.node r] := by
  obtain ⟨s₁, label, word, label_ok, -, rfl⟩ := of_jumpStatement h
  have hlabel : Covers text s₁.stream u.stream
      (label.toList.map fun label => .written label.span label.name) := by
    cases label_ok with
    | none ends => exact covers_of_ends ends
    | some name_ok ends => exact (covers_identifier name_ok).append (covers_of_ends ends)
  cases jump with
  | «break» => exact node_of_word ⟨trivial, rfl⟩ rfl word hk hlabel
  | «continue» => exact node_of_word ⟨trivial, rfl⟩ rfl word hk hlabel

theorem covers_emptyStatement {r : Statement} (hk : isWide s.kind = true)
    (h : emptyStatement s = .ok r u) : Covers text s.stream u.stream [.node r] := by
  obtain ⟨word, rfl⟩ := of_emptyStatement h
  exact node_of_word ⟨trivial, rfl⟩ rfl word hk .refl

section Rules

/- The answers that a rule depends on are nested where they have been read. -/
variable (hd : ∀ g s r u, d g s = .ok r u → g.Nests text s r u)

include hd

theorem covers_statements {inPrologue : Bool} {stop : TokenKind} {r : List Statement}
    (h : Statements d inPrologue stop s r u) :
    Covers text s.stream u.stream [.node (.ofList r)] := by
  cases h with
  | closed different closing => exact (covers_of_takes closing).append .nil
  | ended => exact .nil
  | directive more_text prologue statement_ok isDirective more =>
    rename_i statement s₁ directive rest
    have hrest : Covers text (obeyed directive s₁).stream u.stream [.node (.ofList rest)] :=
      hd _ _ _ _ more
    rw [stream_obeyed] at hrest
    exact (covers_markDirective isDirective (hd _ _ _ _ statement_ok)).cons hrest
  | statement more_text not_directive statement_ok more =>
    exact Covers.cons (hd _ _ _ _ statement_ok) (hd _ _ _ _ more)

theorem covers_declaratorRead {inFor : Bool} {kind : VariableKind} {r : Declarator}
    (h : DeclaratorRead d inFor kind s r u) : Covers text s.stream u.stream [.node r] := by
  cases h with
  | initialized target_ok legal eq init_ok =>
    rename_i target s₁ s₂ init
    have hinit := (covers_value hd init_ok).present
    refine node_of_first ⟨trivial, rfl⟩ rfl rfl rfl trivial ?_
    exact (covers_bindingAtom hd target_ok).append ((covers_of_takes eq).append hinit)
  | bare target_ok legal no_value allowed =>
    rename_i target
    refine node_of_first ⟨trivial, rfl⟩ rfl rfl rfl trivial ?_
    exact (covers_bindingAtom hd target_ok).append .absent

theorem covers_declarators {inFor : Bool} {kind : VariableKind} {r : List Declarator}
    (h : Declarators d inFor kind s r u) : Covers text s.stream u.stream [.node (.ofList r)] := by
  cases h with
  | last first_ok => exact .single (covers_declaratorRead hd first_ok)
  | more first_ok comma more =>
    have hrest := (covers_of_takes comma).append (hd _ _ _ _ more)
    exact (covers_declaratorRead hd first_ok).cons hrest

theorem covers_declarationStatement {kind : VariableKind} {r : Statement}
    (hk : isWide s.kind = true) (h : declarationStatement d kind s = .ok r u) :
    Covers text s.stream u.stream [.node r] := by
  obtain ⟨s₁, list, s₂, word, list_ok, ends, rfl⟩ := of_declarationStatement h
  have hlist : Covers text s₁.stream s₂.stream [.node (.ofList list)] := hd _ _ _ _ list_ok
  have hdeclaration := node_of_word (n := .declaration (u.spanFrom s.place) kind (.ofList list))
    ⟨trivial, rfl⟩ rfl word hk (hlist.append (covers_of_ends ends))
  exact hdeclaration.wrap ⟨trivial, rfl⟩ trivial rfl rfl

theorem covers_returnStatement {options : ParseOptions} {r : Statement}
    (hk : isWide s.kind = true) (h : returnStatement d options s = .ok r u) :
    Covers text s.stream u.stream [.node r] := by
  cases of_returnStatement h with
  | empty allowed word ends =>
    exact node_of_word ⟨trivial, rfl⟩ rfl word hk ((covers_of_ends ends).append .absent)
  | value allowed word value_ok ends =>
    refine node_of_word ⟨trivial, rfl⟩ rfl word hk ?_
    exact (covers_expression hd value_ok).present.append (covers_of_ends ends)

theorem covers_headExpression {e : Expression} (h : headExpression d s = .ok e u) :
    Covers text s.stream u.stream [.node e] := by
  obtain ⟨s₁, s₂, opening, value_ok, closing⟩ := of_headExpression h
  have he := covers_expression hd value_ok
  exact (covers_of_takes opening).append (he.append (covers_of_takes closing))

theorem covers_ifStatement {r : Statement} (hk : isWide s.kind = true)
    (h : ifStatement d s = .ok r u) : Covers text s.stream u.stream [.node r] := by
  obtain ⟨s₁, test, s₂, consequent, s₃, alternate, word, test_ok, consequent_ok, alternate_ok,
    rfl⟩ := of_ifStatement h
  have htest := covers_headExpression hd test_ok
  have hconsequent : Covers text s₂.stream s₃.stream [.node consequent] :=
    hd _ _ _ _ consequent_ok
  have halternate : Covers text s₃.stream u.stream [.node alternate] := by
    cases alternate_ok with
    | absent => exact .absent
    | present word statement_ok =>
      exact (covers_of_takes word).append (Covers.present (hd _ _ _ _ statement_ok))
  exact node_of_word ⟨trivial, rfl⟩ rfl word hk (htest.append (hconsequent.append halternate))

theorem covers_loopBody {r : Statement} (h : loopBody d s = .ok r u) :
    Covers text s.stream u.stream [.node r] := by
  obtain ⟨t, body_ok, rfl⟩ := of_loopBody h
  exact hd _ _ _ _ body_ok

theorem covers_whileStatement {r : Statement} (hk : isWide s.kind = true)
    (h : whileStatement d s = .ok r u) : Covers text s.stream u.stream [.node r] := by
  obtain ⟨s₁, test, s₂, body, word, test_ok, body_ok, rfl⟩ := of_whileStatement h
  refine node_of_word ⟨trivial, rfl⟩ rfl word hk ?_
  exact (covers_headExpression hd test_ok).append (covers_loopBody hd body_ok)

theorem covers_optionalExpression {stop : TokenKind} {r : Node (.option .expression)}
    (h : OptionalExpression d stop s r u) : Covers text s.stream u.stream [.node r] := by
  cases h with
  | absent => exact .absent
  | present value_ok => exact (covers_expression hd value_ok).present

section For

/- The word `for` has been read at `first`, and its head up to `s`. -/
variable {start : Place} (hstart : start = first.place) (hk : isWide first.kind = true)
  (word : advance first = .ok () t)

include hstart hk word

theorem covers_forParts {init : Node (.option .forInit)} {r : Statement}
    (hinit : Covers text t.stream s.stream [.node init])
    (h : forParts d start init s = .ok r u) : Covers text first.stream u.stream [.node r] := by
  subst hstart
  obtain ⟨s₁, test, s₂, s₃, update, s₄, s₅, body, semi, test_ok, semi', update_ok, closing,
    body_ok, rfl⟩ := of_forParts h
  have hbody := (covers_of_takes closing).append (covers_loopBody hd body_ok)
  have hupdate := (covers_of_takes semi').append (covers_optionalExpression hd update_ok)
  have htest := (covers_of_takes semi).append (covers_optionalExpression hd test_ok)
  exact node_of_word ⟨trivial, rfl⟩ rfl word hk
    (hinit.append (htest.append (hupdate.append hbody)))

theorem covers_forEach {left : Node .forTarget} {r : Statement}
    (hleft : Covers text t.stream s.stream [.node left]) (h : ForEach d start left s r u) :
    Covers text first.stream u.stream [.node r] := by
  subst hstart
  cases h with
  | keys into right_ok closing body_ok =>
    have hright := (covers_of_takes into).append (covers_expression hd right_ok)
    have hbody := (covers_of_takes closing).append (covers_loopBody hd body_ok)
    exact node_of_word ⟨trivial, rfl⟩ rfl word hk (hleft.append (hright.append hbody))
  | values not_in of right_ok closing body_ok =>
    have hright := (covers_of_advance of).append (covers_value hd right_ok)
    have hbody := (covers_of_takes closing).append (covers_loopBody hd body_ok)
    exact node_of_word ⟨trivial, rfl⟩ rfl word hk (hleft.append (hright.append hbody))

theorem covers_forDeclaration {kind : VariableKind} {r : Statement}
    (head : Covers text t.stream s.stream []) (begins : BeginsDeclaration kind s)
    (h : ForDeclaration d start kind s r u) : Covers text first.stream u.stream [.node r] := by
  have hdeclaration : ∀ {s₁ s₂ : ParseState} {list : List Declarator}, advance s = .ok () s₁ →
      d (.declarators true kind) s₁ = .ok list s₂ → Covers text t.stream s₂.stream
        [.node (.declaration (s₂.spanFrom s.place) kind (.ofList list))] :=
    fun word' list_ok => head.append
      (node_of_word ⟨trivial, rfl⟩ rfl word' (isWide_of_begins begins) (hd _ _ _ _ list_ok))
  cases h with
  | each word' list_ok next each_ok =>
    refine covers_forEach hd hstart hk word ?_ each_ok
    exact (hdeclaration word' list_ok).wrap ⟨trivial, rfl⟩ trivial rfl rfl
  | parts word' list_ok parts_ok =>
    refine covers_forParts hd hstart hk word (Covers.present ?_) parts_ok
    exact (hdeclaration word' list_ok).wrap ⟨trivial, rfl⟩ trivial rfl rfl

theorem covers_forExpression {r : Statement} (head : Covers text t.stream s.stream [])
    (h : ForExpression d start s r u) : Covers text first.stream u.stream [.node r] := by
  cases h with
  | each init_ok next target_ok legal each_ok =>
    have htarget := covers_toPattern target_ok legal (covers_expressionWith hd init_ok)
    refine covers_forEach hd hstart hk word ?_ each_ok
    exact (head.append htarget).wrap ⟨trivial, rfl⟩ trivial rfl rfl
  | parts init_ok parts_ok =>
    refine covers_forParts hd hstart hk word (Covers.present ?_) parts_ok
    exact (head.append (covers_expressionWith hd init_ok)).wrap ⟨trivial, rfl⟩ trivial rfl rfl

end For

theorem covers_forStatement {r : Statement} (hk : isWide s.kind = true)
    (h : forStatement d s = .ok r u) : Covers text s.stream u.stream [.node r] := by
  obtain ⟨s₁, s₂, word, opening, head⟩ := of_forStatement h
  have hopening : Covers text s₁.stream s₂.stream [] := covers_of_takes opening
  cases head with
  | empty next parts_ok =>
    exact covers_forParts hd rfl hk word (hopening.append .absent) parts_ok
  | declaration begins declaration_ok =>
    exact covers_forDeclaration hd rfl hk word hopening begins declaration_ok
  | expression expression_ok =>
    exact covers_forExpression hd rfl hk word hopening expression_ok

theorem covers_throwStatement {r : Statement} (hk : isWide s.kind = true)
    (h : throwStatement d s = .ok r u) : Covers text s.stream u.stream [.node r] := by
  obtain ⟨s₁, argument, s₂, word, argument_ok, ends, rfl⟩ := of_throwStatement h
  refine node_of_word ⟨trivial, rfl⟩ rfl word hk ?_
  exact (covers_expression hd argument_ok).append (covers_of_ends ends)

theorem covers_catchClause {r : Node .handler} (hk : isWide s.kind = true)
    (h : catchClause d s = .ok r u) : Covers text s.stream u.stream [.node r] := by
  obtain ⟨s₁, s₂, param, s₃, s₄, body, word, opening, param_ok, legal, closing, body_ok, rfl⟩ :=
    of_catchClause h
  have hparam := (covers_of_takes opening).append (covers_bindingAtom hd param_ok)
  have hbody := (covers_of_takes closing).append (covers_block hd body_ok)
  exact node_of_word ⟨trivial, rfl⟩ rfl word hk (hparam.append hbody)

theorem covers_tryStatement {r : Statement} (hk : isWide s.kind = true)
    (h : tryStatement d s = .ok r u) : Covers text s.stream u.stream [.node r] := by
  obtain ⟨s₁, body, s₂, handler, s₃, finalizer, word, body_ok, handler_ok, finalizer_ok, -, rfl⟩ :=
    of_tryStatement h
  have hhandler : Covers text s₂.stream s₃.stream [.node (ofOption handler)] := by
    cases handler_ok with
    | none => exact .absent
    | some word clause_ok => exact (covers_catchClause hd (word ▸ rfl) clause_ok).present
  have hfinalizer : Covers text s₃.stream u.stream [.node (ofOption finalizer)] := by
    cases finalizer_ok with
    | none => exact .absent
    | some word block_ok =>
      exact (covers_of_takes word).append (covers_block hd block_ok).present
  refine node_of_word ⟨trivial, rfl⟩ rfl word hk ?_
  exact (covers_block hd body_ok).append (hhandler.append hfinalizer)

theorem covers_labeledStatement {start : Place} {label : Identifier} {r : Statement}
    (hstart : start = first.place)
    (hlabel : Covers text first.stream s.stream [.written label.span label.name])
    (h : labeledStatement d start label s = .ok r u) :
    Covers text first.stream u.stream [.node r] := by
  obtain ⟨s₁, body, t, fresh, word, body_ok, rfl, rfl⟩ := of_labeledStatement h
  have hbody : Covers text s₁.stream t.stream [.node body] := hd _ _ _ _ body_ok
  refine node_of_part ⟨trivial, rfl⟩ rfl hstart
    (spansOf_ne_nil (n := body) trivial (List.mem_cons_of_mem _ List.mem_cons_self)) ?_
  exact hlabel.append ((covers_of_advance word).append hbody)

theorem covers_expressionStatement {r : Statement} (h : expressionStatement d s = .ok r u) :
    Covers text s.stream u.stream [.node r] := by
  cases of_expressionStatement h with
  | labeled name label_ok colon body_ok =>
    have hlabel := (covers_expression hd label_ok).to_written trivial rfl rfl
    exact covers_labeledStatement hd rfl hlabel body_ok
  | plain value_ok ends =>
    rename_i e s₁
    refine node_of_first ⟨trivial, rfl⟩ rfl rfl rfl trivial ?_
    exact (covers_expression hd value_ok).append (covers_of_ends ends)

theorem covers_functionStatement {r : Statement} (hk : isWide s.kind = true)
    (h : functionStatement d s = .ok r u) : Covers text s.stream u.stream [.node r] := by
  obtain ⟨s₁, f, word, function_ok, rfl⟩ := of_functionStatement h
  obtain ⟨hf, hspan⟩ := covers_function hd function_ok
  exact node_of_word ⟨trivial, rfl⟩ hspan word hk hf

theorem covers_statement {options : ParseOptions} {r : Statement}
    (h : StatementRead d options s r u) : Covers text s.stream u.stream [.node r] := by
  cases h with
  | declaration begins statement_ok =>
    exact covers_declarationStatement hd (isWide_of_begins begins) statement_ok
  | block block_ok => exact (covers_block hd block_ok).wrap ⟨trivial, rfl⟩ trivial rfl rfl
  | empty word statement_ok => exact covers_emptyStatement (word ▸ rfl) statement_ok
  | function word statement_ok => exact covers_functionStatement hd (word ▸ rfl) statement_ok
  | returned word statement_ok => exact covers_returnStatement hd (word ▸ rfl) statement_ok
  | conditional word statement_ok => exact covers_ifStatement hd (word ▸ rfl) statement_ok
  | whileLoop word statement_ok => exact covers_whileStatement hd (word ▸ rfl) statement_ok
  | forLoop word statement_ok => exact covers_forStatement hd (word ▸ rfl) statement_ok
  | jump word statement_ok =>
    rcases word with word | word <;> exact covers_jumpStatement (word ▸ rfl) statement_ok
  | thrown word statement_ok => exact covers_throwStatement hd (word ▸ rfl) statement_ok
  | guarded word statement_ok => exact covers_tryStatement hd (word ▸ rfl) statement_ok
  | expression statement_ok => exact covers_expressionStatement hd statement_ok

end Rules

end EcmaTree.Nesting
