import EcmaTree.Proofs.Grammar.Balance.Primary

/-!
# Contexts of statements

A block is closed by its own brace, whether the reader took the opening one for a block or for an
object. The statements of a program end with the end of the text, which closes nothing.
-/

namespace EcmaTree.Balance

open EcmaTree.Parser EcmaTree.Grammar EcmaTree.Reading Node ContextStack

variable {options : ParseOptions} {d : Descent} {s u : ParseState}

theorem isUnkeyed_of_directive {text : String} {statement : Statement}
    (h : directive? statement = some text) : statement.IsUnkeyed := by
  unfold directive? at h
  split at h
  · rfl
  · cases h

theorem keeps_of_begins {kind : VariableKind} (h : BeginsDeclaration kind s)
    (word : advance s = .ok () u) : s.Keeps u := by
  cases kind with
  | «var» | const => exact keeps_of_takes ⟨h, word⟩ rfl
  | «let» => exact keeps_of_takes ⟨ParseState.kind_of_isWord h.1, word⟩ rfl

theorem keeps_of_jumpLabel {label : Option Identifier} (h : JumpLabel s label u) : s.Keeps u := by
  cases h with
  | none ends => exact keeps_of_ends ends
  | some label_ok ends => exact (keeps_of_identifier label_ok).trans (keeps_of_ends ends)

theorem keeps_of_jumpStatement {jump : Jump} {r : Statement}
    (kind : s.kind = .keyword .break ∨ s.kind = .keyword .continue)
    (h : jumpStatement jump s = .ok r u) : s.Keeps u := by
  obtain ⟨s₁, label, word, hlabel, -, -⟩ := of_jumpStatement h
  have hword : s.Keeps s₁ := by
    rcases kind with kind | kind <;> exact keeps_of_takes ⟨kind, word⟩ rfl
  exact hword.trans (keeps_of_jumpLabel hlabel)

section Rules

/- The answers that a rule depends on keep to the contexts. -/
variable (hd : ∀ g s r u, d g s = .ok r u → g.Balances s r u)

include hd

theorem closes_statements {inPrologue : Bool} {stop : TokenKind} {r : List Statement}
    (hstop : stop.opensContext = false) (h : Statements d inPrologue stop s r u)
    (hr : ∀ x ∈ r, x.IsUnkeyed) : s.Closes stop u := by
  cases h with
  | closed different closing => exact closes_of_takes closing hstop
  | ended same eof =>
    subst same
    exact fun _ _ hs => hs
  | directive more_text prologue statement_ok isDirective more =>
    obtain ⟨-, hrest⟩ := List.forall_mem_cons.mp hr
    have hstatement : s.Keeps _ := hd _ _ _ _ statement_ok (isUnkeyed_of_directive isDirective)
    exact (hstatement.trans (keeps_of_stream_eq (stream_obeyed _ _))).closes
      (hd _ _ _ _ more hstop hrest)
  | statement more_text not_directive statement_ok more =>
    obtain ⟨hx, hrest⟩ := List.forall_mem_cons.mp hr
    have hstatement : s.Keeps _ := hd _ _ _ _ statement_ok hx
    exact hstatement.closes (hd _ _ _ _ more hstop hrest)

theorem keeps_declaratorRead {inFor : Bool} {kind : VariableKind} {r : Declarator}
    (h : DeclaratorRead d inFor kind s r u) (hr : r.IsUnkeyed) : s.Keeps u := by
  cases h with
  | initialized target_ok legal eq init_ok =>
    have htarget := keeps_bindingAtom hd target_ok (hr.first rfl)
    have hvalue := keeps_value hd init_ok ((hr.second rfl).first rfl)
    exact (htarget.trans (keeps_of_takes eq rfl)).trans hvalue
  | bare target_ok => exact keeps_bindingAtom hd target_ok (hr.first rfl)

theorem keeps_declarators {inFor : Bool} {kind : VariableKind} {r : List Declarator}
    (h : Declarators d inFor kind s r u) (hr : ∀ x ∈ r, x.IsUnkeyed) : s.Keeps u := by
  cases h with
  | last first_ok => exact keeps_declaratorRead hd first_ok (hr _ List.mem_cons_self)
  | more first_ok comma more =>
    obtain ⟨hx, hrest⟩ := List.forall_mem_cons.mp hr
    have hfirst := keeps_declaratorRead hd first_ok hx
    exact (hfirst.trans (keeps_of_takes comma rfl)).trans (hd _ _ _ _ more hrest)

theorem keeps_declarationStatement {kind : VariableKind} {r : Statement}
    (begins : BeginsDeclaration kind s) (h : declarationStatement d kind s = .ok r u)
    (hr : r.IsUnkeyed) : s.Keeps u := by
  obtain ⟨s₁, list, s₂, word, list_ok, ends, rfl⟩ := of_declarationStatement h
  have hlist : s₁.Keeps s₂ :=
    hd _ _ _ _ list_ok (isUnkeyed_ofList.mp ((hr.first rfl).first rfl))
  exact ((keeps_of_begins begins word).trans hlist).trans (keeps_of_ends ends)

theorem keeps_returnStatement {r : Statement} (kind : s.kind = .keyword .return)
    (h : returnStatement d options s = .ok r u) (hr : r.IsUnkeyed) : s.Keeps u := by
  cases of_returnStatement h with
  | empty allowed word ends => exact (keeps_of_takes ⟨kind, word⟩ rfl).trans (keeps_of_ends ends)
  | value allowed word value_ok ends =>
    have hvalue := keeps_expression hd value_ok ((hr.first rfl).first rfl)
    exact ((keeps_of_takes ⟨kind, word⟩ rfl).trans hvalue).trans (keeps_of_ends ends)

theorem keeps_headExpression {e : Expression} (h : headExpression d s = .ok e u)
    (he : e.IsUnkeyed) : s.Keeps u := by
  obtain ⟨s₁, s₂, opening, value_ok, closing⟩ := of_headExpression h
  have hvalue := keeps_expression hd value_ok he
  exact keeps_of_parens opening (hvalue.closes (closes_of_takes closing rfl))

theorem keeps_ifStatement {r : Statement} (kind : s.kind = .keyword .if)
    (h : ifStatement d s = .ok r u) (hr : r.IsUnkeyed) : s.Keeps u := by
  obtain ⟨s₁, test, s₂, consequent, s₃, alternate, word, test_ok, consequent_ok, alternate_ok,
    rfl⟩ := of_ifStatement h
  have htest := keeps_headExpression hd test_ok (hr.first rfl)
  have hconsequent : s₂.Keeps s₃ := hd _ _ _ _ consequent_ok (hr.second rfl)
  have halternate : s₃.Keeps u := by
    cases alternate_ok with
    | absent => exact .refl _
    | present word statement_ok =>
      have hstatement := hd _ _ _ _ statement_ok ((hr.third rfl).first rfl)
      exact (keeps_of_takes word rfl).trans hstatement
  exact (((keeps_of_takes ⟨kind, word⟩ rfl).trans htest).trans hconsequent).trans halternate

theorem keeps_loopBody {r : Statement} (h : loopBody d s = .ok r u) (hr : r.IsUnkeyed) :
    s.Keeps u := by
  obtain ⟨t, body_ok, rfl⟩ := of_loopBody h
  have hbody : ParseState.Keeps _ t := hd _ _ _ _ body_ok hr
  exact hbody

theorem keeps_whileStatement {r : Statement} (kind : s.kind = .keyword .while)
    (h : whileStatement d s = .ok r u) (hr : r.IsUnkeyed) : s.Keeps u := by
  obtain ⟨s₁, test, s₂, body, word, test_ok, body_ok, rfl⟩ := of_whileStatement h
  have htest := keeps_headExpression hd test_ok (hr.first rfl)
  have hbody := keeps_loopBody hd body_ok (hr.second rfl)
  exact ((keeps_of_takes ⟨kind, word⟩ rfl).trans htest).trans hbody

theorem keeps_optionalExpression {stop : TokenKind} {r : Node (.option .expression)}
    (h : OptionalExpression d stop s r u) (hr : r.IsUnkeyed) : s.Keeps u := by
  cases h with
  | absent => exact .refl s
  | present value_ok => exact keeps_expression hd value_ok (hr.first rfl)

/-- What is left of the head of a loop closes its parenthesis, and the body follows it. -/
theorem closes_forParts {start : Place} {init : Node (.option .forInit)} {r : Statement}
    (h : forParts d start init s = .ok r u) (hr : r.IsUnkeyed) :
    ∃ t, init.IsUnkeyed ∧ s.Closes .parenR t ∧ t.Keeps u := by
  obtain ⟨s₁, test, s₂, s₃, update, s₄, s₅, body, first, test_ok, second, update_ok, closing,
    body_ok, rfl⟩ := of_forParts h
  have htest := keeps_optionalExpression hd test_ok (hr.second rfl)
  have hupdate := keeps_optionalExpression hd update_ok (hr.third rfl)
  have hbody := keeps_loopBody hd body_ok (hr.fourth rfl)
  have hhead := (((keeps_of_takes first rfl).trans htest).trans
    (keeps_of_takes second rfl)).trans hupdate
  exact ⟨s₅, hr.first rfl, hhead.closes (closes_of_takes closing rfl), hbody⟩

theorem closes_forEach {start : Place} {left : Node .forTarget} {r : Statement}
    (next : s.kind = .keyword .in ∨ s.isWord "of" = true) (h : ForEach d start left s r u)
    (hr : r.IsUnkeyed) : ∃ t, left.IsUnkeyed ∧ s.Closes .parenR t ∧ t.Keeps u := by
  cases h with
  | keys word right_ok closing body_ok =>
    have hright := keeps_expression hd right_ok (hr.second rfl)
    have hbody := keeps_loopBody hd body_ok (hr.third rfl)
    have hhead := (keeps_of_takes word rfl).trans hright
    exact ⟨_, hr.first rfl, hhead.closes (closes_of_takes closing rfl), hbody⟩
  | values not_in word right_ok closing body_ok =>
    have hright := keeps_value hd right_ok (hr.second rfl)
    have hbody := keeps_loopBody hd body_ok (hr.third rfl)
    have kind := ParseState.kind_of_isWord (next.resolve_left not_in)
    have hhead := (keeps_of_takes ⟨kind, word⟩ rfl).trans hright
    exact ⟨_, hr.first rfl, hhead.closes (closes_of_takes closing rfl), hbody⟩

theorem closes_forDeclaration {start : Place} {kind : VariableKind} {r : Statement}
    (begins : BeginsDeclaration kind s) (h : ForDeclaration d start kind s r u)
    (hr : r.IsUnkeyed) : ∃ t, s.Closes .parenR t ∧ t.Keeps u := by
  cases h with
  | each word list_ok next each_ok =>
    obtain ⟨t, hleft, hhead, hbody⟩ := closes_forEach hd next each_ok hr
    have hlist : ParseState.Keeps _ _ :=
      hd _ _ _ _ list_ok (isUnkeyed_ofList.mp ((hleft.first rfl).first rfl))
    exact ⟨t, ((keeps_of_begins begins word).trans hlist).closes hhead, hbody⟩
  | parts word list_ok parts_ok =>
    obtain ⟨t, hinit, hhead, hbody⟩ := closes_forParts hd parts_ok hr
    have hdeclaration := (hinit.first rfl).first rfl
    have hlist : ParseState.Keeps _ _ :=
      hd _ _ _ _ list_ok (isUnkeyed_ofList.mp (hdeclaration.first rfl))
    exact ⟨t, ((keeps_of_begins begins word).trans hlist).closes hhead, hbody⟩

theorem closes_forExpression {start : Place} {r : Statement} (h : ForExpression d start s r u)
    (hr : r.IsUnkeyed) : ∃ t, s.Closes .parenR t ∧ t.Keeps u := by
  cases h with
  | each init_ok next target_ok legal each_ok =>
    obtain ⟨t, hleft, hhead, hbody⟩ := closes_forEach hd next each_ok hr
    have hinit := isUnkeyed_of_converts (converts_of_toPattern target_ok) (hleft.first rfl)
    exact ⟨t, (keeps_expressionWith hd init_ok hinit).closes hhead, hbody⟩
  | parts init_ok parts_ok =>
    obtain ⟨t, hinit, hhead, hbody⟩ := closes_forParts hd parts_ok hr
    have hvalue := keeps_expressionWith hd init_ok ((hinit.first rfl).first rfl)
    exact ⟨t, hvalue.closes hhead, hbody⟩

theorem keeps_forStatement {r : Statement} (kind : s.kind = .keyword .for)
    (h : forStatement d s = .ok r u) (hr : r.IsUnkeyed) : s.Keeps u := by
  obtain ⟨s₁, s₂, word, opening, head⟩ := of_forStatement h
  obtain ⟨t, hhead, hbody⟩ : ∃ t, s₂.Closes .parenR t ∧ t.Keeps u := by
    cases head with
    | empty next parts_ok =>
      obtain ⟨t, -, hparts⟩ := closes_forParts hd parts_ok hr
      exact ⟨t, hparts⟩
    | declaration begins declaration_ok => exact closes_forDeclaration hd begins declaration_ok hr
    | expression expression_ok => exact closes_forExpression hd expression_ok hr
  exact ((keeps_of_takes ⟨kind, word⟩ rfl).trans (keeps_of_parens opening hhead)).trans hbody

theorem keeps_throwStatement {r : Statement} (kind : s.kind = .keyword .throw)
    (h : throwStatement d s = .ok r u) (hr : r.IsUnkeyed) : s.Keeps u := by
  obtain ⟨s₁, argument, s₂, word, argument_ok, ends, rfl⟩ := of_throwStatement h
  have hargument := keeps_expression hd argument_ok (hr.first rfl)
  exact ((keeps_of_takes ⟨kind, word⟩ rfl).trans hargument).trans (keeps_of_ends ends)

theorem keeps_catchClause {r : Node .handler} (kind : s.kind = .keyword .catch)
    (h : catchClause d s = .ok r u) (hr : r.IsUnkeyed) : s.Keeps u := by
  obtain ⟨s₁, s₂, param, s₃, s₄, body, word, opening, param_ok, -, closing, body_ok, rfl⟩ :=
    of_catchClause h
  have hparam := keeps_bindingAtom hd param_ok (hr.first rfl)
  have hparens := keeps_of_parens opening (hparam.closes (closes_of_takes closing rfl))
  exact ((keeps_of_takes ⟨kind, word⟩ rfl).trans hparens).trans
    (keeps_block hd body_ok (hr.second rfl))

theorem keeps_tryStatement {r : Statement} (kind : s.kind = .keyword .try)
    (h : tryStatement d s = .ok r u) (hr : r.IsUnkeyed) : s.Keeps u := by
  obtain ⟨s₁, body, s₂, handler, s₃, finalizer, word, body_ok, handler_ok, finalizer_ok, -, rfl⟩ :=
    of_tryStatement h
  have hbody := keeps_block hd body_ok (hr.first rfl)
  have hhandler : s₂.Keeps s₃ := by
    cases handler_ok with
    | none => exact .refl _
    | some kind clause_ok =>
      exact keeps_catchClause hd kind clause_ok (isUnkeyed_ofOption.mp (hr.second rfl) _ rfl)
  have hfinalizer : s₃.Keeps u := by
    cases finalizer_ok with
    | none => exact .refl _
    | some word block_ok =>
      have hblock := keeps_block hd block_ok (isUnkeyed_ofOption.mp (hr.third rfl) _ rfl)
      exact (keeps_of_takes word rfl).trans hblock
  exact (((keeps_of_takes ⟨kind, word⟩ rfl).trans hbody).trans hhandler).trans hfinalizer

theorem keeps_labeledStatement {start : Place} {label : Identifier} {r : Statement}
    (colon : s.kind = .colon) (h : labeledStatement d start label s = .ok r u)
    (hr : r.IsUnkeyed) : s.Keeps u := by
  obtain ⟨s₁, body, t, -, word, body_ok, rfl, rfl⟩ := of_labeledStatement h
  have hbody : ParseState.Keeps _ t := hd _ _ _ _ body_ok (hr.first rfl)
  exact (keeps_of_takes ⟨colon, word⟩ rfl).trans hbody

theorem keeps_expressionStatement {r : Statement} (h : expressionStatement d s = .ok r u)
    (hr : r.IsUnkeyed) : s.Keeps u := by
  cases of_expressionStatement h with
  | labeled name label_ok colon body_ok =>
    exact (keeps_expression hd label_ok rfl).trans (keeps_labeledStatement hd colon body_ok hr)
  | plain value_ok ends =>
    exact (keeps_expression hd value_ok (hr.first rfl)).trans (keeps_of_ends ends)

theorem keeps_functionStatement {r : Statement} (kind : s.kind = .keyword .function)
    (h : functionStatement d s = .ok r u) (hr : r.IsUnkeyed) : s.Keeps u := by
  obtain ⟨s₁, f, word, function_ok, rfl⟩ := of_functionStatement h
  have hfinishes := finishes_function hd function_ok (hr.first rfl) (hr.second rfl)
  exact (begins_of_function ⟨kind, word⟩).trans hfinishes

theorem keeps_statement {r : Statement} (h : StatementRead d options s r u)
    (hr : r.IsUnkeyed) : s.Keeps u := by
  cases h with
  | declaration begins statement_ok => exact keeps_declarationStatement hd begins statement_ok hr
  | block block_ok => exact keeps_block hd block_ok (hr.first rfl)
  | empty kind statement_ok =>
    obtain ⟨word, -⟩ := of_emptyStatement statement_ok
    exact keeps_of_takes ⟨kind, word⟩ rfl
  | function kind statement_ok => exact keeps_functionStatement hd kind statement_ok hr
  | returned kind statement_ok => exact keeps_returnStatement hd kind statement_ok hr
  | conditional kind statement_ok => exact keeps_ifStatement hd kind statement_ok hr
  | whileLoop kind statement_ok => exact keeps_whileStatement hd kind statement_ok hr
  | forLoop kind statement_ok => exact keeps_forStatement hd kind statement_ok hr
  | jump kind statement_ok => exact keeps_of_jumpStatement kind statement_ok
  | thrown kind statement_ok => exact keeps_throwStatement hd kind statement_ok hr
  | guarded kind statement_ok => exact keeps_tryStatement hd kind statement_ok hr
  | expression statement_ok => exact keeps_expressionStatement hd statement_ok hr

end Rules

end EcmaTree.Balance
