import EcmaTree.Proofs.Grammar.Scope

/-!
# Every rule keeps the scope

What holds of the rules for expressions and targets holds of statements as well, because a label
is taken away behind its statement. Only statements among which directives may stand turn strict
mode on, and they belong to the program or to the body of a function, which returns to its own
scope. A rule that stops leaves the same scope behind as one that succeeds.
-/

namespace EcmaTree

namespace Parser

variable {α β : Type} {p q : Parser α} {f : α → Parser β}

/-- However the parser ends, strict mode has at most been turned on, and the rest of the scope is
what it was. -/
def KeepsButStrict (p : Parser α) : Prop :=
  ∀ s, ∃ strict, (endState (p s)).scope = { s.scope with strict := s.scope.strict || strict }

theorem Keeps.butStrict (hp : Keeps p) : KeepsButStrict p :=
  fun s => ⟨false, by rw [Bool.or_false, hp s]⟩

namespace KeepsButStrict

theorem bind (hp : KeepsButStrict p) (hf : ∀ a, KeepsButStrict (f a)) :
    KeepsButStrict (p >>= f) := by
  intro s
  obtain ⟨first, hfirst⟩ := hp s
  change ∃ strict, (endState (EStateM.bind p f s)).scope = _
  unfold EStateM.bind
  cases h : p s with
  | ok a t =>
    rw [h] at hfirst
    obtain ⟨second, hsecond⟩ := hf a t
    refine ⟨first || second, hsecond.trans ?_⟩
    rw [show t.scope = _ from hfirst, Bool.or_assoc]
  | error e t =>
    rw [h] at hfirst
    exact ⟨first, hfirst⟩

theorem ite {c : Prop} [Decidable c] (hp : KeepsButStrict p) (hq : KeepsButStrict q) :
    KeepsButStrict (if c then p else q) := by
  split
  · exact hp
  · exact hq

end KeepsButStrict

theorem keeps_peekKind : Keeps peekKind := by
  intro s
  unfold peekKind
  split <;> rfl

theorem keeps_semicolon : Keeps semicolon := by
  refine keeps_eat.bind fun _ => .ite keeps_pure ?_
  exact keeps_canInsertSemicolon.bind fun _ => .ite keeps_pure keeps_unexpected

theorem keeps_withLabel {label : Label} (hp : Keeps p) : Keeps (withLabel label p) := by
  intro s
  have hkeeps := hp (s.pushLabel label)
  unfold ParseState.pushLabel at hkeeps
  unfold withLabel
  split
  next h =>
    rw [h] at hkeeps
    exact congrArg (fun scope : Scope => { scope with labels := scope.labels.tail }) hkeeps
  next h =>
    rw [h] at hkeeps
    exact congrArg (fun scope : Scope => { scope with labels := scope.labels.tail }) hkeeps

end Parser

/-- The goal of statements among which directives may stand. -/
def Goal.TakesDirectives : Goal → Prop
  | .statements inPrologue _ => inPrologue = true
  | _ => False

theorem Goal.not_takesDirectives_of_not_isStatement {g : Goal} (hg : ¬g.IsStatement) :
    ¬g.TakesDirectives := by
  cases g with
  | statements => exact absurd trivial hg
  | _ => exact id

namespace Frame

open EcmaTree.Parser EcmaTree.Grammar EcmaTree.Scope

theorem keeps_checkUninitialized {inFor : Bool} {kind : VariableKind} {target : Pattern} :
    Keeps (checkUninitialized inFor kind target) := by
  have hnamed : Keeps (do unless target.isName do fail .missingInitializer (← lastEnd (← here))) :=
    .ite keeps_pure (keeps_here.bind fun _ => keeps_lastEnd.bind fun _ => keeps_fail)
  refine keeps_sees.bind fun _ => keeps_isContextual.bind fun _ => .ite ?_ keeps_pure
  exact .ite (keeps_unexpected.bind fun _ => hnamed) hnamed

theorem keeps_seesLet : Keeps seesLet := by
  refine keeps_isContextual.bind fun _ => .ite (keeps_peekKind.bind fun k => ?_) keeps_pure
  split <;> exact keeps_pure

theorem keeps_declarationKind? : Keeps declarationKind? := by
  refine keeps_kind.bind fun k => ?_
  split
  · exact keeps_pure
  · exact keeps_pure
  · exact keeps_seesLet.bind fun _ => .ite keeps_pure keeps_pure
  · exact keeps_pure

theorem keeps_seesForEach : Keeps seesForEach :=
  keeps_sees.bind fun _ => keeps_isContextual.bind fun _ => keeps_pure

theorem keeps_jumpLabel : Keeps jumpStatement.jumpLabel := by
  refine keeps_eat.bind fun _ => .ite keeps_pure ?_
  refine keeps_canInsertSemicolon.bind fun _ => .ite keeps_pure ?_
  refine keeps_sees.bind fun _ => .ite ?_ keeps_unexpected
  exact keeps_identifier.bind fun _ => keeps_semicolon.bind fun _ => keeps_pure

theorem keeps_jumpStatement {jump : Jump} : Keeps (jumpStatement jump) := by
  refine keeps_here.bind fun _ => keeps_advance.bind fun _ => keeps_jumpLabel.bind fun _ => ?_
  refine keeps_get.bind fun _ => .ite (keeps_finish.bind fun _ => ?_) keeps_fail
  split <;> exact keeps_pure

theorem keeps_emptyStatement : Keeps emptyStatement :=
  keeps_here.bind fun _ => keeps_advance.bind fun _ => keeps_finish.bind fun _ => keeps_pure

theorem keeps_endsEmpty : Keeps returnStatement.endsEmpty :=
  keeps_eat.bind fun _ => .ite keeps_pure keeps_canInsertSemicolon

theorem keepsButStrict_obeyDirective {text : String} : KeepsButStrict (obeyDirective text) := by
  intro s
  refine ⟨text == "use strict", ?_⟩
  change (if text == "use strict" then { s with scope := { s.scope with strict := true } }
    else s).scope = _
  split
  next h => rw [h, Bool.or_true]
  next h => rw [Bool.eq_false_iff.mpr h, Bool.or_false]

section Rules

/- The answers that a rule depends on keep the scope unless they take directives. -/
variable {d : Descent} (hd : ∀ g, ¬g.TakesDirectives → Keeps (d g))

include hd

theorem keeps_of_not_isStatement (g : Goal) (hg : ¬g.IsStatement) : Keeps (d g) :=
  hd g (Goal.not_takesDirectives_of_not_isStatement hg)

theorem keeps_condition {noIn : Bool} : Keeps (expression d noIn) :=
  keeps_expression (keeps_of_not_isStatement hd)

theorem keeps_block : Keeps (block d false) := by
  refine keeps_here.bind fun _ => keeps_expect.bind fun _ => ?_
  refine (hd (.statements false _) Bool.false_ne_true).bind fun _ => ?_
  exact keeps_finish.bind fun _ => keeps_pure

theorem keeps_plainStatements {stop : TokenKind} : Keeps (statements d false stop) := by
  simp only [statements]
  refine keeps_sees.bind fun _ => .ite (.ite keeps_pure (keeps_advance.bind fun _ => keeps_pure)) ?_
  refine keeps_sees.bind fun _ => .ite keeps_unexpected ((hd _ id).bind fun _ => ?_)
  exact (hd (.statements false _) Bool.false_ne_true).bind fun _ => keeps_pure

theorem keeps_declarator {inFor : Bool} {kind : VariableKind} :
    Keeps (declarator d inFor kind) := by
  refine keeps_here.bind fun _ => ?_
  refine (keeps_bindingAtom (keeps_of_not_isStatement hd)).bind fun _ => ?_
  refine keeps_checkTarget.bind fun _ => keeps_eat.bind fun _ => .ite ?_ ?_
  · refine (keeps_value (keeps_of_not_isStatement hd)).bind fun _ => ?_
    exact keeps_finish.bind fun _ => keeps_pure
  · exact keeps_checkUninitialized.bind fun _ => keeps_finish.bind fun _ => keeps_pure

theorem keeps_declarators {inFor : Bool} {kind : VariableKind} :
    Keeps (declarators d inFor kind) := by
  refine (keeps_declarator hd).bind fun _ => keeps_eat.bind fun _ => .ite ?_ keeps_pure
  exact (hd _ id).bind fun _ => keeps_pure

theorem keeps_declarationStatement {kind : VariableKind} :
    Keeps (declarationStatement d kind) := by
  refine keeps_here.bind fun _ => keeps_advance.bind fun _ => (hd _ id).bind fun _ => ?_
  exact keeps_semicolon.bind fun _ => keeps_finish.bind fun _ => keeps_pure

theorem keeps_returnStatement {options : ParseOptions} : Keeps (returnStatement d options) := by
  refine keeps_here.bind fun _ => keeps_get.bind fun _ => .ite keeps_fail ?_
  refine keeps_advance.bind fun _ => keeps_endsEmpty.bind fun _ => .ite ?_ ?_
  · exact keeps_finish.bind fun _ => keeps_pure
  · refine (keeps_condition hd).bind fun _ => keeps_semicolon.bind fun _ => ?_
    exact keeps_finish.bind fun _ => keeps_pure

theorem keeps_headExpression : Keeps (headExpression d) := by
  refine keeps_expect.bind fun _ => (keeps_condition hd).bind fun _ => ?_
  exact keeps_expect.bind fun _ => keeps_pure

theorem keeps_ifStatement : Keeps (ifStatement d) := by
  simp only [ifStatement, ite_bind]
  refine keeps_here.bind fun _ => keeps_advance.bind fun _ => ?_
  refine (keeps_headExpression hd).bind fun _ => (hd .statement id).bind fun _ => ?_
  refine keeps_eat.bind fun _ => ?_
  refine .bind (.ite (hd .statement id).map keeps_pure) fun _ => ?_
  exact keeps_finish.bind fun _ => keeps_pure

theorem keeps_loopBody : Keeps (loopBody d) :=
  keeps_withLabel (hd _ id)

theorem keeps_whileStatement : Keeps (whileStatement d) := by
  refine keeps_here.bind fun _ => keeps_advance.bind fun _ => ?_
  refine (keeps_headExpression hd).bind fun _ => (keeps_loopBody hd).bind fun _ => ?_
  exact keeps_finish.bind fun _ => keeps_pure

theorem keeps_optionalExpression {stop : TokenKind} : Keeps (optionalExpression d stop) := by
  refine keeps_sees.bind fun _ => .ite keeps_pure ?_
  exact (keeps_condition hd).bind fun _ => keeps_pure

theorem keeps_forParts {start : Place} {init : Node (.option .forInit)} :
    Keeps (forParts d start init) := by
  refine keeps_expect.bind fun _ => (keeps_optionalExpression hd).bind fun _ => ?_
  refine keeps_expect.bind fun _ => (keeps_optionalExpression hd).bind fun _ => ?_
  refine keeps_expect.bind fun _ => (keeps_loopBody hd).bind fun _ => ?_
  exact keeps_finish.bind fun _ => keeps_pure

theorem keeps_forEach {start : Place} {left : Node .forTarget} : Keeps (forEach d start left) := by
  simp only [forEach, ite_bind]
  refine keeps_sees.bind fun _ => keeps_advance.bind fun _ => ?_
  refine .bind (.ite (keeps_condition hd) (keeps_value (keeps_of_not_isStatement hd))) fun _ => ?_
  refine keeps_expect.bind fun _ => (keeps_loopBody hd).bind fun _ => ?_
  exact keeps_finish.bind fun _ => keeps_pure

theorem keeps_forDeclaration {start : Place} {kind : VariableKind} :
    Keeps (forDeclaration d start kind) := by
  refine keeps_here.bind fun _ => keeps_advance.bind fun _ => (hd _ id).bind fun _ => ?_
  refine keeps_finish.bind fun _ => ?_
  refine keeps_seesForEach.bind fun _ => .ite ?_ ?_
  · exact keeps_forEach hd
  · exact keeps_forParts hd

theorem keeps_forExpression {start : Place} : Keeps (forExpression d start) := by
  refine (keeps_expressionWith (keeps_of_not_isStatement hd)).bind fun _ => ?_
  refine keeps_seesForEach.bind fun _ => .ite ?_ ?_
  · refine keeps_lift.bind fun _ => keeps_checkTarget.bind fun _ => keeps_forEach hd
  · exact keeps_refuse.bind fun _ => keeps_forParts hd

theorem keeps_forStatement : Keeps (forStatement d) := by
  refine keeps_here.bind fun _ => keeps_advance.bind fun _ => keeps_expect.bind fun _ => ?_
  refine keeps_sees.bind fun _ => .ite (keeps_forParts hd) (keeps_declarationKind?.bind fun k => ?_)
  cases k with
  | some kind => exact keeps_forDeclaration hd
  | none => exact keeps_forExpression hd

theorem keeps_throwStatement : Keeps (throwStatement d) := by
  refine keeps_here.bind fun _ => keeps_advance.bind fun _ => keeps_afterLineBreak.bind fun _ => ?_
  refine .ite (keeps_lastEnd.bind fun _ => keeps_fail) ?_
  refine (keeps_condition hd).bind fun _ => keeps_semicolon.bind fun _ => ?_
  exact keeps_finish.bind fun _ => keeps_pure

theorem keeps_catchClause : Keeps (catchClause d) := by
  refine keeps_here.bind fun _ => keeps_advance.bind fun _ => keeps_expect.bind fun _ => ?_
  refine (keeps_bindingAtom (keeps_of_not_isStatement hd)).bind fun _ => ?_
  refine keeps_checkTargets.bind fun _ => keeps_expect.bind fun _ => ?_
  refine (keeps_block hd).bind fun _ => ?_
  exact keeps_finish.bind fun _ => keeps_pure

theorem keeps_tryStatement : Keeps (tryStatement d) := by
  simp only [tryStatement, ite_bind]
  refine keeps_here.bind fun _ => keeps_advance.bind fun _ => (keeps_block hd).bind fun _ => ?_
  refine keeps_sees.bind fun _ => .bind (.ite (keeps_catchClause hd).map keeps_pure) fun _ => ?_
  refine keeps_eat.bind fun _ => .bind (.ite (keeps_block hd).map keeps_pure) fun _ => ?_
  exact .ite keeps_fail (keeps_finish.bind fun _ => keeps_pure)

theorem keeps_labeledStatement {start : Place} {label : Identifier} :
    Keeps (labeledStatement d start label) := by
  refine keeps_get.bind fun _ => .ite keeps_fail ?_
  refine keeps_advance.bind fun _ => keeps_kind.bind fun _ => ?_
  refine (keeps_withLabel (hd _ id)).bind fun _ => ?_
  exact keeps_finish.bind fun _ => keeps_pure

theorem keeps_expressionStatement : Keeps (expressionStatement d) := by
  refine keeps_here.bind fun _ => keeps_sees.bind fun _ => (keeps_condition hd).bind fun _ => ?_
  refine keeps_sees.bind fun _ => ?_
  split
  · exact keeps_labeledStatement hd
  · exact keeps_semicolon.bind fun _ => keeps_finish.bind fun _ => keeps_pure

theorem keeps_functionStatement : Keeps (functionStatement d) := by
  refine keeps_here.bind fun _ => keeps_advance.bind fun _ => ?_
  exact (keeps_function (keeps_of_not_isStatement hd)).bind fun _ => keeps_pure

theorem keeps_statement {options : ParseOptions} : Keeps (statement d options) := by
  refine keeps_declarationKind?.bind fun k => ?_
  cases k with
  | some kind => exact keeps_declarationStatement hd
  | none =>
    refine keeps_kind.bind fun k => ?_
    split
    · exact (keeps_block hd).bind fun _ => keeps_pure
    · exact keeps_emptyStatement
    · exact keeps_functionStatement hd
    · exact keeps_returnStatement hd
    · exact keeps_ifStatement hd
    · exact keeps_whileStatement hd
    · exact keeps_forStatement hd
    · exact keeps_jumpStatement
    · exact keeps_jumpStatement
    · exact keeps_throwStatement hd
    · exact keeps_tryStatement hd
    · exact keeps_expressionStatement hd

/-- The step of the induction: one case for each kind of goal. -/
theorem keeps_plainRule {options : ParseOptions} {g : Goal} (hg : ¬g.TakesDirectives) :
    Keeps (rule options d g) := by
  cases g with
  | statement => exact keeps_statement hd
  | statements inPrologue stop =>
    cases inPrologue with
    | true => exact absurd rfl hg
    | false => exact keeps_plainStatements hd
  | declarators => exact keeps_declarators hd
  | _ => exact keeps_rule (keeps_of_not_isStatement hd) id

end Rules

section Directives

/- Among the answers that a rule depends on only statements with directives turn strict mode on. -/
variable {d : Descent} (hd : ∀ g, ¬g.TakesDirectives → Keeps (d g))
  (hb : ∀ stop, KeepsButStrict (d (.statements true stop)))

include hb

theorem keepsButStrict_block : KeepsButStrict (block d true) := by
  refine keeps_here.butStrict.bind fun _ => keeps_expect.butStrict.bind fun _ => ?_
  refine (hb .braceR).bind fun _ => ?_
  exact (keeps_finish.bind fun _ => keeps_pure).butStrict

include hd

theorem keepsButStrict_statements {stop : TokenKind} :
    KeepsButStrict (statements d true stop) := by
  have hplain : ∀ r, KeepsButStrict (d (.statements false stop) >>= fun rest => pure (r :: rest)) :=
    fun _ => ((hd (.statements false stop) Bool.false_ne_true).bind fun _ => keeps_pure).butStrict
  simp only [statements]
  refine keeps_sees.butStrict.bind fun _ => .ite ?_ ?_
  · exact (Keeps.ite keeps_pure (keeps_advance.bind fun _ => keeps_pure)).butStrict
  refine keeps_sees.butStrict.bind fun _ => .ite keeps_unexpected.butStrict ?_
  refine (hd .statement id).butStrict.bind fun r => ?_
  cases directive? r with
  | none => exact hplain r
  | some text =>
    refine keepsButStrict_obeyDirective.bind fun _ => (hb stop).bind fun _ => ?_
    exact keeps_pure.butStrict

theorem keepsButStrict_arrowBody : KeepsButStrict (arrowBody d) := by
  refine keeps_sees.butStrict.bind fun _ => .ite ?_ ?_
  · exact (keepsButStrict_block hb).bind fun _ => keeps_pure.butStrict
  · exact ((keeps_value (keeps_of_not_isStatement hd)).bind fun _ => keeps_pure).butStrict

end Directives

/-- However the rules of the grammar end, and in whatever state they begin, they keep the scope. The
statements of a body of a function may turn strict mode on, but the function does not. -/
structure KeepsScope (options : ParseOptions) (d : Descent) : Prop where
  goal : ∀ g, ¬g.TakesDirectives → Keeps (rule options d g)
  answer : ∀ g, ¬g.TakesDirectives → Keeps (d g)
  directives : ∀ stop, KeepsButStrict (d (.statements true stop))
  body : KeepsButStrict (block d true)
  arrowBody : KeepsButStrict (arrowBody d)
  functionBody : ∀ {α : Type} (id : Option Identifier) (params : List Pattern)
    (generator arrow : Bool) (body : Parser α), Keeps (functionBody id params generator arrow body)
  function : ∀ start isDeclaration, Keeps (function d start isDeclaration)
  method : ∀ generator, Keeps (method d generator)
  arrow : ∀ start params, Keeps (arrow d start params)
  parameters : Keeps (parameters d)
  propertyName : Keeps (propertyName d)
  bindingAtom : Keeps (bindingAtom d)
  bindingElement : Keeps (bindingElement d)
  patternProperty : Keeps (patternProperty d)
  expressionWith : ∀ noIn owned pending, Keeps (expressionWith d noIn owned pending)
  expression : ∀ noIn, Keeps (expression d noIn)
  conditional : ∀ noIn pending, Keeps (conditional d noIn pending)
  leftHandSide : ∀ pending, Keeps (leftHandSide d pending)
  unaryExpression : Keeps (unaryExpression d)
  yieldExpression : ∀ noIn, Keeps (yieldExpression d noIn)
  parenthesis : ∀ canBeArrow, Keeps (parenthesis d canBeArrow)
  nameOrArrow : ∀ canBeArrow, Keeps (nameOrArrow d canBeArrow)
  newExpression : Keeps (newExpression d)
  template : Keeps (template d)
  property : ∀ pending, Keeps (property d pending)
  block : Keeps (block d false)
  declarator : ∀ inFor kind, Keeps (declarator d inFor kind)
  declarationStatement : ∀ kind, Keeps (declarationStatement d kind)
  returnStatement : Keeps (returnStatement d options)
  headExpression : Keeps (headExpression d)
  ifStatement : Keeps (ifStatement d)
  loopBody : Keeps (loopBody d)
  whileStatement : Keeps (whileStatement d)
  forStatement : Keeps (forStatement d)
  forParts : ∀ start init, Keeps (forParts d start init)
  forEach : ∀ start left, Keeps (forEach d start left)
  forDeclaration : ∀ start kind, Keeps (forDeclaration d start kind)
  forExpression : ∀ start, Keeps (forExpression d start)
  jumpStatement : ∀ jump, Keeps (jumpStatement jump)
  throwStatement : Keeps (throwStatement d)
  catchClause : Keeps (catchClause d)
  tryStatement : Keeps (tryStatement d)
  labeledStatement : ∀ start label, Keeps (labeledStatement d start label)
  expressionStatement : Keeps (expressionStatement d)
  functionStatement : Keeps (functionStatement d)

/-- All rules keep the scope if the answers that they depend on do. -/
theorem keepsScope_of_answers {options : ParseOptions} {d : Descent}
    (hd : ∀ g, ¬g.TakesDirectives → Keeps (d g))
    (hb : ∀ stop, KeepsButStrict (d (.statements true stop))) : KeepsScope options d := by
  have he := keeps_of_not_isStatement hd
  exact {
    goal := fun _ hg => keeps_plainRule hd hg
    answer := hd
    directives := hb
    body := keepsButStrict_block hb
    arrowBody := keepsButStrict_arrowBody hd hb
    functionBody := fun _ _ _ _ _ => keeps_functionBody
    function := fun _ _ => keeps_function he
    method := fun _ => keeps_method he
    arrow := fun _ _ => keeps_arrow
    parameters := keeps_parameters he
    propertyName := keeps_propertyName he
    bindingAtom := keeps_bindingAtom he
    bindingElement := keeps_bindingElement he
    patternProperty := keeps_patternProperty he
    expressionWith := fun _ _ _ => keeps_expressionWith he
    expression := fun _ => keeps_expression he
    conditional := fun _ _ => keeps_conditional he
    leftHandSide := fun _ => keeps_leftHandSide he
    unaryExpression := keeps_unaryExpression he
    yieldExpression := fun _ => keeps_yieldExpression he
    parenthesis := fun _ => keeps_parenthesis he
    nameOrArrow := fun _ => keeps_nameOrArrow
    newExpression := keeps_newExpression he
    template := keeps_template he
    property := fun _ => keeps_property he
    block := keeps_block hd
    declarator := fun _ _ => keeps_declarator hd
    declarationStatement := fun _ => keeps_declarationStatement hd
    returnStatement := keeps_returnStatement hd
    headExpression := keeps_headExpression hd
    ifStatement := keeps_ifStatement hd
    loopBody := keeps_loopBody hd
    whileStatement := keeps_whileStatement hd
    forStatement := keeps_forStatement hd
    forParts := fun _ _ => keeps_forParts hd
    forEach := fun _ _ => keeps_forEach hd
    forDeclaration := fun _ _ => keeps_forDeclaration hd
    forExpression := fun _ => keeps_forExpression hd
    jumpStatement := fun _ => keeps_jumpStatement
    throwStatement := keeps_throwStatement hd
    catchClause := keeps_catchClause hd
    tryStatement := keeps_tryStatement hd
    labeledStatement := fun _ _ => keeps_labeledStatement hd
    expressionStatement := keeps_expressionStatement hd
    functionStatement := keeps_functionStatement hd }

/-- The run of the induction. -/
theorem keepsButStrict_answer (options : ParseOptions) (fuel : Nat) :
    (∀ g : Goal, ¬g.TakesDirectives → Keeps (answer options fuel g)) ∧
      ∀ stop, KeepsButStrict (answer options fuel (.statements true stop)) := by
  induction fuel with
  | zero => exact ⟨fun _ _ _ => rfl, fun _ s => ⟨false, by rw [Bool.or_false]; rfl⟩⟩
  | succ fuel ih =>
    obtain ⟨hd, hb⟩ := ih
    exact ⟨fun g hg => keeps_plainRule hd hg, fun stop => keepsButStrict_statements hd hb⟩

/-- Labels, functions and strict mode are in every state behind a rule what they were before it. -/
theorem keepsScope_answer (options : ParseOptions) (fuel : Nat) :
    KeepsScope options (answer options fuel) := by
  obtain ⟨hd, hb⟩ := keepsButStrict_answer options fuel
  exact keepsScope_of_answers hd hb

end Frame

end EcmaTree
