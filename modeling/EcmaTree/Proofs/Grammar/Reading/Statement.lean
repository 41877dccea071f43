import EcmaTree.Proofs.Grammar.Reading.Primary

/-!
# What the rules for statements have read

The first token of a statement decides on its rule, so most predicates start with that
token. The body of a loop and of a labeled statement is read with one more label in scope.
-/

namespace EcmaTree.Reading

open EcmaTree.Parser EcmaTree.Grammar

variable {d : Descent} {s u : ParseState}

/-- The state after the directive for strict mode, or after another one. -/
def obeyed (text : String) (s : ParseState) : ParseState :=
  if text == "use strict" then { s with scope := { s.scope with strict := true } } else s

@[simp]
theorem obeyDirective_eq_ok {text : String} {x : Unit} :
    obeyDirective text s = .ok x u ↔ u = obeyed text s := by
  simp [obeyDirective, obeyed]

@[simp]
theorem stream_obeyed (text : String) (s : ParseState) : (obeyed text s).stream = s.stream := by
  unfold obeyed
  split <;> rfl

/-- How statements up to a token of kind `stop` are read. -/
inductive Statements (d : Descent) (inPrologue : Bool) (stop : TokenKind) (s : ParseState) :
    List Statement → ParseState → Prop
  | closed {u : ParseState} (different : stop ≠ .eof) (closing : Takes stop s u) :
      Statements d inPrologue stop s [] u
  | ended (same : stop = .eof) (eof : s.kind = .eof) : Statements d inPrologue stop s [] s
  | directive {statement s₁ text rest u} (more_text : s.kind ≠ .eof) (prologue : inPrologue = true)
      (statement_ok : d .statement s = .ok statement s₁)
      (isDirective : directive? statement = some text)
      (more : d (.statements true stop) (obeyed text s₁) = .ok rest u) :
      Statements d inPrologue stop s (markDirective text statement :: rest) u
  | statement {statement s₁ rest u} (more_text : s.kind ≠ .eof)
      (not_directive : inPrologue = true → directive? statement = none)
      (statement_ok : d .statement s = .ok statement s₁)
      (more : d (.statements false stop) s₁ = .ok rest u) :
      Statements d inPrologue stop s (statement :: rest) u

theorem of_statements {inPrologue : Bool} {stop : TokenKind} {r : List Statement}
    (h : statements d inPrologue stop s = .ok r u) : Statements d inPrologue stop s r u := by
  simp only [statements, unless_bind] at h
  simp at h
  rcases h with ⟨hk, ⟨hs, rfl⟩ | ⟨hs, ha⟩, rfl⟩ | ⟨hk, he, statement, s₁, h, hr⟩
  · exact .ended hs (hk.trans hs)
  · exact .closed hs ⟨hk, ha⟩
  · rw [run_eq_ok] at hr
    obtain ⟨m, hm, hr⟩ := hr
    split at hm <;> subst hm <;> simp at hr
    · rename_i hd
      obtain ⟨rest, hr, rfl⟩ := hr
      exact .directive he rfl h hd hr
    · rename_i hd
      obtain ⟨rest, hr, rfl⟩ := hr
      exact .statement he (fun hp => by
        cases hv : directive? statement with
        | none => rfl
        | some text => exact (hd text hp hv).elim) h hr

/-- A target without a value was allowed where it stands. -/
theorem of_checkUninitialized {inFor : Bool} {kind : VariableKind} {target : Pattern} {x : Unit}
    (h : checkUninitialized inFor kind target s = .ok x u) :
    u = s ∧ ((inFor = true ∧ (s.kind = .keyword .in ∨ s.isWord "of" = true)) ∨
      (kind ≠ .const ∧ target.isName = true)) := by
  simp [checkUninitialized] at h
  grind

/-- How one declarator is read. -/
inductive DeclaratorRead (d : Descent) (inFor : Bool) (kind : VariableKind) (s : ParseState) :
    Declarator → ParseState → Prop
  | initialized {target s₁ s₂ init u} (target_ok : BindingAtom d s target s₁)
      (legal : (Pattern.check s₁.scope.strict true none target).1 = .ok ())
      (eq : Takes .eq s₁ s₂) (init_ok : d.value inFor s₂ = .ok init u) :
      DeclaratorRead d inFor kind s (.declarator (u.spanFrom s.place) target (.present init)) u
  | bare {target u} (target_ok : BindingAtom d s target u)
      (legal : (Pattern.check u.scope.strict true none target).1 = .ok ())
      (no_value : u.kind ≠ .eq)
      (allowed : (inFor = true ∧ (u.kind = .keyword .in ∨ u.isWord "of" = true)) ∨
        (kind ≠ .const ∧ target.isName = true)) :
      DeclaratorRead d inFor kind s (.declarator (u.spanFrom s.place) target .absent) u

theorem of_declarator {inFor : Bool} {kind : VariableKind} {r : Declarator}
    (h : declarator d inFor kind s = .ok r u) : DeclaratorRead d inFor kind s r u := by
  simp [declarator] at h
  obtain ⟨target, s₁, h, hl, ⟨hk, hc, rfl⟩ | ⟨s₂, ht, init, hi, rfl⟩⟩ := h
  · obtain ⟨rfl, ha⟩ := of_checkUninitialized hc
    exact .bare (of_bindingAtom h) hl hk ha
  · exact .initialized (of_bindingAtom h) hl ht hi

/-- How a list of declarators is read. -/
inductive Declarators (d : Descent) (inFor : Bool) (kind : VariableKind) (s : ParseState) :
    List Declarator → ParseState → Prop
  | last {first u} (first_ok : DeclaratorRead d inFor kind s first u) (no_more : u.kind ≠ .comma) :
      Declarators d inFor kind s [first] u
  | more {first s₁ s₂ rest u} (first_ok : DeclaratorRead d inFor kind s first s₁)
      (comma : Takes .comma s₁ s₂) (more : d (.declarators inFor kind) s₂ = .ok rest u) :
      Declarators d inFor kind s (first :: rest) u

theorem of_declarators {inFor : Bool} {kind : VariableKind} {r : List Declarator}
    (h : declarators d inFor kind s = .ok r u) : Declarators d inFor kind s r u := by
  simp [declarators] at h
  obtain ⟨first, s₁, h, ⟨⟨hk, rfl⟩, rfl⟩ | ⟨s₂, ht, rest, h', rfl⟩⟩ := h
  · exact .last (of_declarator h) hk
  · exact .more (of_declarator h) ht h'

theorem of_declarationStatement {kind : VariableKind} {r : Statement}
    (h : declarationStatement d kind s = .ok r u) :
    ∃ s₁ list s₂, advance s = .ok () s₁ ∧ d (.declarators false kind) s₁ = .ok list s₂ ∧
      Ends s₂ u ∧
      r = .declarationStatement (.declaration (u.spanFrom s.place) kind (.ofList list)) := by
  simp [declarationStatement] at h
  obtain ⟨s₁, ha, list, s₂, h, he, rfl⟩ := h
  exact ⟨s₁, list, s₂, ha, h, he, rfl⟩

theorem of_seesLet {b : Bool} (h : seesLet s = .ok b u) :
    u = s ∧ (b = true → s.isWord "let" = true) := by
  simp [seesLet] at h
  rcases h with ⟨hw, k, -, h⟩ | ⟨-, rfl, rfl⟩
  · rw [run_eq_ok] at h
    obtain ⟨m, hm, h⟩ := h
    split at hm <;> subst hm <;> simp at h <;> exact ⟨h.2, fun _ => hw⟩
  · exact ⟨rfl, nofun⟩

/-- The first token of a declaration of some kind. -/
def BeginsDeclaration (kind : VariableKind) (s : ParseState) : Prop :=
  match kind with
  | .var => s.kind = .keyword .var
  | .const => s.kind = .keyword .const
  | .let => s.isWord "let" = true ∧ seesLet s = .ok true s

theorem of_declarationKind? {r : Option VariableKind} (h : declarationKind? s = .ok r u) :
    u = s ∧ ∀ kind, r = some kind → BeginsDeclaration kind s := by
  simp [declarationKind?] at h
  rw [run_eq_ok] at h
  obtain ⟨m, hm, h⟩ := h
  split at hm <;> subst hm <;> simp at h
  · rename_i hk
    obtain ⟨rfl, rfl⟩ := h
    exact ⟨rfl, by rintro kind ⟨⟩; exact hk⟩
  · rename_i hk
    obtain ⟨rfl, rfl⟩ := h
    exact ⟨rfl, by rintro kind ⟨⟩; exact hk⟩
  · rcases h with ⟨h, rfl⟩ | ⟨h, rfl⟩
    · obtain ⟨rfl, -⟩ := of_seesLet h
      exact ⟨rfl, nofun⟩
    · obtain ⟨rfl, hw⟩ := of_seesLet h
      exact ⟨rfl, by rintro kind ⟨⟩; exact ⟨hw rfl, h⟩⟩
  · obtain ⟨rfl, rfl⟩ := h
    exact ⟨rfl, nofun⟩

/-- How what follows `return` is read. -/
inductive ReturnStatement (d : Descent) (options : ParseOptions) (s : ParseState) :
    Statement → ParseState → Prop
  | empty {s₁ u} (allowed : s.scope.inFunction = true ∨ options.allowReturnOutsideFunction = true)
      (word : advance s = .ok () s₁) (ends : Ends s₁ u) :
      ReturnStatement d options s (.returnStatement (u.spanFrom s.place) .absent) u
  | value {s₁ e s₂ u}
      (allowed : s.scope.inFunction = true ∨ options.allowReturnOutsideFunction = true)
      (word : advance s = .ok () s₁) (value_ok : expression d false s₁ = .ok e s₂)
      (ends : Ends s₂ u) :
      ReturnStatement d options s (.returnStatement (u.spanFrom s.place) (.present e)) u

theorem of_returnStatement {options : ParseOptions} {r : Statement}
    (h : returnStatement d options s = .ok r u) : ReturnStatement d options s r u := by
  simp [returnStatement, returnStatement.endsEmpty] at h
  obtain ⟨ha, s₁, hw, h⟩ := h
  have allowed : s.scope.inFunction = true ∨ options.allowReturnOutsideFunction = true := by
    cases hf : s.scope.inFunction with
    | true => exact .inl rfl
    | false => exact .inr (ha hf)
  rcases h with ⟨hk, ⟨-, e, s₂, h, he, rfl⟩ | ⟨⟨he, rfl⟩, rfl⟩⟩ | ⟨ht, rfl⟩
  · exact .value allowed hw h he
  · exact .empty allowed hw (.inr ⟨hk, he, rfl⟩)
  · exact .empty allowed hw (.inl ht)

theorem of_headExpression {e : Expression} (h : headExpression d s = .ok e u) :
    ∃ s₁ s₂, Takes .parenL s s₁ ∧ expression d false s₁ = .ok e s₂ ∧ Takes .parenR s₂ u := by
  simpa [headExpression] using h

/-- How the statement after `else` is read, if there is one. -/
inductive Alternate (d : Descent) (s : ParseState) :
    Node (.option .statement) → ParseState → Prop
  | absent (no_else : s.kind ≠ .keyword .else) : Alternate d s .absent s
  | present {s₁ statement u} (word : Takes (.keyword .else) s s₁)
      (statement_ok : d .statement s₁ = .ok statement u) : Alternate d s (.present statement) u

theorem of_ifStatement {r : Statement} (h : ifStatement d s = .ok r u) :
    ∃ s₁ test s₂ consequent s₃ alternate, advance s = .ok () s₁ ∧
      headExpression d s₁ = .ok test s₂ ∧ d .statement s₂ = .ok consequent s₃ ∧
      Alternate d s₃ alternate u ∧
      r = .ifStatement (u.spanFrom s.place) test consequent alternate := by
  simp only [ifStatement, ite_bind] at h
  simp at h
  obtain ⟨s₁, ha, test, s₂, ht, consequent, s₃, hc, h⟩ := h
  rcases h with ⟨hk, rfl, rfl⟩ | ⟨s₄, hw, statement, h, rfl⟩
  · exact ⟨s₁, test, s₂, consequent, _, .absent, ha, ht, hc, .absent hk, rfl⟩
  · exact ⟨s₁, test, s₂, consequent, s₃, .present statement, ha, ht, hc, .present hw h, rfl⟩

theorem of_loopBody {r : Statement} (h : loopBody d s = .ok r u) :
    ∃ t, d .statement (s.pushLabel ⟨none, true⟩) = .ok r t ∧ u = t.popLabel := by
  simpa [loopBody] using h

theorem of_whileStatement {r : Statement} (h : whileStatement d s = .ok r u) :
    ∃ s₁ test s₂ body, advance s = .ok () s₁ ∧ headExpression d s₁ = .ok test s₂ ∧
      loopBody d s₂ = .ok body u ∧ r = .whileStatement (u.spanFrom s.place) test body := by
  simp [whileStatement] at h
  obtain ⟨s₁, ha, test, s₂, ht, body, hb, rfl⟩ := h
  exact ⟨s₁, test, s₂, body, ha, ht, hb, rfl⟩

/-- How an expression is read that may be left out. -/
inductive OptionalExpression (d : Descent) (stop : TokenKind) (s : ParseState) :
    Node (.option .expression) → ParseState → Prop
  | absent (next : s.kind = stop) : OptionalExpression d stop s .absent s
  | present {e u} (value_ok : expression d false s = .ok e u) :
      OptionalExpression d stop s (.present e) u

theorem of_optionalExpression {stop : TokenKind} {r : Node (.option .expression)}
    (h : optionalExpression d stop s = .ok r u) : OptionalExpression d stop s r u := by
  simp [optionalExpression] at h
  rcases h with ⟨hk, rfl, rfl⟩ | ⟨-, e, h, rfl⟩
  · exact .absent hk
  · exact .present h

theorem of_forParts {start : Place} {init : Node (.option .forInit)} {r : Statement}
    (h : forParts d start init s = .ok r u) :
    ∃ s₁ test s₂ s₃ update s₄ s₅ body, Takes .semi s s₁ ∧ OptionalExpression d .semi s₁ test s₂ ∧
      Takes .semi s₂ s₃ ∧ OptionalExpression d .parenR s₃ update s₄ ∧ Takes .parenR s₄ s₅ ∧
      loopBody d s₅ = .ok body u ∧
      r = .forStatement (u.spanFrom start) init test update body := by
  simp [forParts] at h
  obtain ⟨s₁, h₁, test, s₂, ht, s₃, h₃, update, s₄, hu, s₅, h₅, body, hb, rfl⟩ := h
  exact ⟨s₁, test, s₂, s₃, update, s₄, s₅, body, h₁, of_optionalExpression ht, h₃,
    of_optionalExpression hu, h₅, hb, rfl⟩

/-- How a `for` over keys or values is read after its left part. -/
inductive ForEach (d : Descent) (start : Place) (left : Node .forTarget) (s : ParseState) :
    Statement → ParseState → Prop
  | keys {s₁ right s₂ s₃ body u} (word : Takes (.keyword .in) s s₁)
      (right_ok : expression d false s₁ = .ok right s₂) (closing : Takes .parenR s₂ s₃)
      (body_ok : loopBody d s₃ = .ok body u) :
      ForEach d start left s (.forInStatement (u.spanFrom start) left right body) u
  | values {s₁ right s₂ s₃ body u} (not_in : s.kind ≠ .keyword .in) (word : advance s = .ok () s₁)
      (right_ok : d.value false s₁ = .ok right s₂) (closing : Takes .parenR s₂ s₃)
      (body_ok : loopBody d s₃ = .ok body u) :
      ForEach d start left s (.forOfStatement (u.spanFrom start) left right body) u

theorem of_forEach {start : Place} {left : Node .forTarget} {r : Statement}
    (h : forEach d start left s = .ok r u) : ForEach d start left s r u := by
  simp only [forEach, ite_bind] at h
  simp at h
  obtain ⟨s₁, ha, right, s₂, ⟨hk, hr⟩ | ⟨hk, hr⟩, s₃, ht, body, hb, rfl⟩ := h
  · rw [if_pos hk]
    exact .keys ⟨hk, ha⟩ hr ht hb
  · rw [if_neg hk]
    exact .values hk ha hr ht hb

@[simp]
theorem seesForEach_eq_ok {b : Bool} :
    seesForEach s = .ok b u ↔ b = (s.kind == .keyword .in || s.isWord "of") ∧ u = s := by
  simp only [seesForEach, bind_eq_ok, sees_eq_ok, isContextual_eq_ok, ↓existsAndEq, true_and]
  cases h : s.kind == .keyword .in <;> simp

/-- How a `for` is read whose head begins with a declaration. -/
inductive ForDeclaration (d : Descent) (start : Place) (kind : VariableKind) (s : ParseState) :
    Statement → ParseState → Prop
  | each {s₁ declarator s₂ r u} (word : advance s = .ok () s₁)
      (list_ok : d (.declarators true kind) s₁ = .ok [declarator] s₂)
      (next : s₂.kind = .keyword .in ∨ s₂.isWord "of" = true)
      (each_ok : ForEach d start (.targetDeclaration (.declaration (s₂.spanFrom s.place) kind
        (.ofList [declarator]))) s₂ r u) :
      ForDeclaration d start kind s r u
  | parts {s₁ list s₂ r u} (word : advance s = .ok () s₁)
      (list_ok : d (.declarators true kind) s₁ = .ok list s₂)
      (parts_ok : forParts d start (.present (.initDeclaration (.declaration
        (s₂.spanFrom s.place) kind (.ofList list)))) s₂ = .ok r u) :
      ForDeclaration d start kind s r u

theorem of_forDeclaration {start : Place} {kind : VariableKind} {r : Statement}
    (h : forDeclaration d start kind s = .ok r u) : ForDeclaration d start kind s r u := by
  simp [forDeclaration] at h
  obtain ⟨s₁, ha, list, s₂, hl, ⟨⟨hone, hn⟩, h⟩ | ⟨-, h⟩⟩ := h
  · obtain ⟨declarator, rfl⟩ := List.length_eq_one_iff.mp hone
    exact .each ha hl hn (of_forEach h)
  · exact .parts ha hl h

/-- How a `for` is read whose head begins with an expression. -/
inductive ForExpression (d : Descent) (start : Place) (s : ParseState) :
    Statement → ParseState → Prop
  | each {init pending s₁ target r u}
      (init_ok : ExpressionWith d true false none s (init, pending) s₁)
      (next : s₁.kind = .keyword .in ∨ s₁.isWord "of" = true)
      (target_ok : init.toPattern false = .ok target)
      (legal : (Pattern.check s₁.scope.strict false none target).1 = .ok ())
      (each_ok : ForEach d start (.targetPattern target) s₁ r u) :
      ForExpression d start s r u
  | parts {init s₁ r u} (init_ok : ExpressionWith d true false none s (init, none) s₁)
      (parts_ok : forParts d start (.present (.initExpression init)) s₁ = .ok r u) :
      ForExpression d start s r u

theorem of_forExpression {start : Place} {r : Statement}
    (h : forExpression d start s = .ok r u) : ForExpression d start s r u := by
  simp [forExpression] at h
  obtain ⟨init, pending, s₁, hi, ⟨hn, target, ht, hl, h⟩ | ⟨-, rfl, h⟩⟩ := h
  · exact .each (of_expressionWith hi) hn ht hl (of_forEach h)
  · exact .parts (of_expressionWith hi) h

/-- How the head of a `for` is read after its parenthesis. -/
inductive ForHead (d : Descent) (start : Place) (s : ParseState) :
    Statement → ParseState → Prop
  | empty {r u} (next : s.kind = .semi) (parts_ok : forParts d start .absent s = .ok r u) :
      ForHead d start s r u
  | declaration {kind r u} (begins : BeginsDeclaration kind s)
      (declaration_ok : ForDeclaration d start kind s r u) : ForHead d start s r u
  | expression {r u} (expression_ok : ForExpression d start s r u) : ForHead d start s r u

theorem of_forStatement {r : Statement} (h : forStatement d s = .ok r u) :
    ∃ s₁ s₂, advance s = .ok () s₁ ∧ Takes .parenL s₁ s₂ ∧ ForHead d s.place s₂ r u := by
  simp [forStatement] at h
  obtain ⟨s₁, ha, s₂, ht, ⟨hk, h⟩ | ⟨-, kind, s₃, hd, h⟩⟩ := h
  · exact ⟨s₁, s₂, ha, ht, .empty hk h⟩
  · obtain ⟨rfl, hb⟩ := of_declarationKind? hd
    cases kind with
    | some kind => exact ⟨s₁, s₃, ha, ht, .declaration (hb kind rfl) (of_forDeclaration h)⟩
    | none => exact ⟨s₁, s₃, ha, ht, .expression (of_forExpression h)⟩

/-- How the label of a jump is read, if there is one. -/
inductive JumpLabel (s : ParseState) : Option Identifier → ParseState → Prop
  | none {u : ParseState} (ends : Ends s u) : JumpLabel s none u
  | some {id s₁ u} (label_ok : identifier false s = .ok id s₁) (ends : Ends s₁ u) :
      JumpLabel s (some id) u

theorem of_jumpLabel {label : Option Identifier} (h : jumpStatement.jumpLabel s = .ok label u) :
    JumpLabel s label u := by
  simp [jumpStatement.jumpLabel] at h
  rcases h with ⟨hk, ⟨he, rfl, rfl⟩ | ⟨-, -, id, s₁, hid, he, rfl⟩⟩ | ⟨ht, rfl⟩
  · exact .none (.inr ⟨hk, he, rfl⟩)
  · exact .some hid he
  · exact .none (.inl ht)

/-- A jump statement of a given kind. -/
def jumpOf (jump : Jump) (span : Span) (label : Option Identifier) : Statement :=
  match jump with
  | .break => .breakStatement span label
  | .continue => .continueStatement span label

theorem of_jumpStatement {jump : Jump} {r : Statement} (h : jumpStatement jump s = .ok r u) :
    ∃ s₁ label, advance s = .ok () s₁ ∧ JumpLabel s₁ label u ∧
      u.scope.labels.any (isJumpTarget jump (label.map Identifier.name)) = true ∧
      r = jumpOf jump (u.spanFrom s.place) label := by
  simp only [jumpStatement, bind_eq_ok, here_eq_ok, get_eq_ok, ite_eq_ok, fail_ne_ok, and_false,
    or_false, ↓existsAndEq, true_and] at h
  obtain ⟨_, s₁, ha, label, s₂, hl, hany, span, s₃, hspan, h⟩ := h
  obtain ⟨rfl, rfl⟩ := finish_eq_ok.mp hspan
  obtain ⟨rfl, rfl⟩ : r = jumpOf jump (s₃.spanFrom s.place) label ∧ u = s₃ := by
    cases jump <;> exact pure_eq_ok.mp h
  exact ⟨s₁, label, ha, of_jumpLabel hl, hany, rfl⟩

theorem of_throwStatement {r : Statement} (h : throwStatement d s = .ok r u) :
    ∃ s₁ argument s₂, advance s = .ok () s₁ ∧ expression d false s₁ = .ok argument s₂ ∧
      Ends s₂ u ∧ r = .throwStatement (u.spanFrom s.place) argument := by
  simp [throwStatement] at h
  obtain ⟨s₁, ha, -, argument, s₂, h, he, rfl⟩ := h
  exact ⟨s₁, argument, s₂, ha, h, he, rfl⟩

theorem of_catchClause {r : Node .handler} (h : catchClause d s = .ok r u) :
    ∃ s₁ s₂ param s₃ s₄ body, advance s = .ok () s₁ ∧ Takes .parenL s₁ s₂ ∧
      BindingAtom d s₂ param s₃ ∧
      Pattern.checkAll s₃.scope.strict true (some []) [param] = .ok () ∧
      Takes .parenR s₃ s₄ ∧ block d false s₄ = .ok body u ∧
      r = .handler (u.spanFrom s.place) param body := by
  simp [catchClause] at h
  obtain ⟨s₁, ha, s₂, ht, param, s₃, hp, hl, s₄, ht', body, hb, rfl⟩ := h
  exact ⟨s₁, s₂, param, s₃, s₄, body, ha, ht, of_bindingAtom hp, hl, ht', hb, rfl⟩

/-- How the handler of a `try` is read, if there is one. -/
inductive Handler (d : Descent) (s : ParseState) :
    Option (Node .handler) → ParseState → Prop
  | none (no_catch : s.kind ≠ .keyword .catch) : Handler d s none s
  | some {handler u} (word : s.kind = .keyword .catch)
      (clause_ok : catchClause d s = .ok handler u) :
      Handler d s (some handler) u

/-- How the last block of a `try` is read, if there is one. -/
inductive Finalizer (d : Descent) (s : ParseState) : Option Block → ParseState → Prop
  | none (no_finally : s.kind ≠ .keyword .finally) : Finalizer d s none s
  | some {s₁ b u} (word : Takes (.keyword .finally) s s₁) (block_ok : block d false s₁ = .ok b u) :
      Finalizer d s (some b) u

theorem of_tryStatement {r : Statement} (h : tryStatement d s = .ok r u) :
    ∃ s₁ body s₂ handler s₃ finalizer, advance s = .ok () s₁ ∧ block d false s₁ = .ok body s₂ ∧
      Handler d s₂ handler s₃ ∧ Finalizer d s₃ finalizer u ∧
      (handler.isSome = true ∨ finalizer.isSome = true) ∧
      r = .tryStatement (u.spanFrom s.place) body (.ofOption handler) (.ofOption finalizer) := by
  simp only [tryStatement, ite_bind] at h
  simp at h
  obtain ⟨s₁, ha, body, s₂, hb, handler, s₃, hh, h⟩ := h
  have hh : Handler d s₂ handler s₃ := by
    rcases hh with ⟨hk, clause, hc, rfl⟩ | ⟨hk, rfl, rfl⟩
    · exact .some hk hc
    · exact .none hk
  rcases h with ⟨hk, rfl, hn, rfl⟩ | ⟨s₄, ht, last, hf, rfl⟩
  · exact ⟨s₁, body, s₂, handler, _, none, ha, hb, hh, .none hk,
      .inl (Option.isSome_iff_ne_none.mpr hn), rfl⟩
  · exact ⟨s₁, body, s₂, handler, s₃, some last, ha, hb, hh, .some ht hf, .inr rfl, rfl⟩

theorem of_labeledStatement {start : Place} {label : Identifier} {r : Statement}
    (h : labeledStatement d start label s = .ok r u) :
    ∃ s₁ body t, (∀ l ∈ s.scope.labels, l.name ≠ some label.name) ∧ advance s = .ok () s₁ ∧
      d .statement (s₁.pushLabel ⟨some label.name, s₁.kind.isLoop⟩) = .ok body t ∧
      u = t.popLabel ∧ r = .labeledStatement (u.spanFrom start) label body := by
  simp [labeledStatement] at h
  obtain ⟨hl, s₁, ha, body, t, h, rfl, rfl⟩ := h
  exact ⟨s₁, body, t, hl, ha, h, rfl, rfl⟩

/-- How a statement is read that begins with an expression. -/
inductive ExpressionStatement (d : Descent) (s : ParseState) : Statement → ParseState → Prop
  | labeled {label s₁ r u} (name : s.kind = .name)
      (label_ok : expression d false s = .ok (.identifier label) s₁) (colon : s₁.kind = .colon)
      (body_ok : labeledStatement d s.place label s₁ = .ok r u) : ExpressionStatement d s r u
  | plain {e s₁ u} (value_ok : expression d false s = .ok e s₁) (ends : Ends s₁ u) :
      ExpressionStatement d s (.expressionStatement (u.spanFrom s.place) e none) u

theorem of_expressionStatement {r : Statement} (h : expressionStatement d s = .ok r u) :
    ExpressionStatement d s r u := by
  simp [expressionStatement] at h
  obtain ⟨e, s₁, he, h⟩ := h
  rw [run_eq_ok] at h
  obtain ⟨m, hm, h⟩ := h
  split at hm <;> subst hm
  · rename_i hc
    obtain ⟨hk, hk'⟩ : s.kind = .name ∧ s₁.kind = .colon := by simpa using hc
    exact .labeled hk he hk' h
  · simp at h
    obtain ⟨hs, rfl⟩ := h
    exact .plain he hs

theorem of_functionStatement {r : Statement} (h : functionStatement d s = .ok r u) :
    ∃ s₁ f, advance s = .ok () s₁ ∧ Function d s.place true s₁ f u ∧ r = f.toDeclaration := by
  simp [functionStatement] at h
  obtain ⟨s₁, ha, f, h, rfl⟩ := h
  exact ⟨s₁, f, ha, of_function h, rfl⟩

theorem of_emptyStatement {r : Statement} (h : emptyStatement s = .ok r u) :
    advance s = .ok () u ∧ r = .emptyStatement (u.spanFrom s.place) := by
  simpa [emptyStatement] using h

/-- How a statement is read. -/
inductive StatementRead (d : Descent) (options : ParseOptions) (s : ParseState) :
    Statement → ParseState → Prop
  | declaration {kind r u} (begins : BeginsDeclaration kind s)
      (statement_ok : declarationStatement d kind s = .ok r u) : StatementRead d options s r u
  | block {b u} (block_ok : block d false s = .ok b u) :
      StatementRead d options s (.blockStatement b) u
  | empty {r u} (word : s.kind = .semi) (statement_ok : emptyStatement s = .ok r u) :
      StatementRead d options s r u
  | function {r u} (word : s.kind = .keyword .function)
      (statement_ok : functionStatement d s = .ok r u) : StatementRead d options s r u
  | returned {r u} (word : s.kind = .keyword .return)
      (statement_ok : returnStatement d options s = .ok r u) : StatementRead d options s r u
  | conditional {r u} (word : s.kind = .keyword .if) (statement_ok : ifStatement d s = .ok r u) :
      StatementRead d options s r u
  | whileLoop {r u} (word : s.kind = .keyword .while)
      (statement_ok : whileStatement d s = .ok r u) : StatementRead d options s r u
  | forLoop {r u} (word : s.kind = .keyword .for) (statement_ok : forStatement d s = .ok r u) :
      StatementRead d options s r u
  | jump {jump r u} (word : s.kind = .keyword .break ∨ s.kind = .keyword .continue)
      (statement_ok : jumpStatement jump s = .ok r u) : StatementRead d options s r u
  | thrown {r u} (word : s.kind = .keyword .throw) (statement_ok : throwStatement d s = .ok r u) :
      StatementRead d options s r u
  | guarded {r u} (word : s.kind = .keyword .try) (statement_ok : tryStatement d s = .ok r u) :
      StatementRead d options s r u
  | expression {r u} (statement_ok : expressionStatement d s = .ok r u) :
      StatementRead d options s r u

theorem of_statement {options : ParseOptions} {r : Statement}
    (h : statement d options s = .ok r u) : StatementRead d options s r u := by
  simp only [statement, bind_eq_ok] at h
  obtain ⟨kind, s₁, hd, h⟩ := h
  obtain ⟨rfl, hb⟩ := of_declarationKind? hd
  cases kind with
  | some kind => exact .declaration (hb kind rfl) h
  | none =>
    simp only [bind_eq_ok, kind_eq_ok, ↓existsAndEq, true_and] at h
    rw [run_eq_ok] at h
    obtain ⟨m, hm, h⟩ := h
    split at hm <;> subst hm <;> rename_i hk
    · obtain ⟨b, t, hb, h⟩ := bind_eq_ok.mp h
      obtain ⟨rfl, rfl⟩ := pure_eq_ok.mp h
      exact .block hb
    · exact .empty hk h
    · exact .function hk h
    · exact .returned hk h
    · exact .conditional hk h
    · exact .whileLoop hk h
    · exact .forLoop hk h
    · exact .jump (.inl hk) h
    · exact .jump (.inr hk) h
    · exact .thrown hk h
    · exact .guarded hk h
    · exact .expression h

end EcmaTree.Reading
