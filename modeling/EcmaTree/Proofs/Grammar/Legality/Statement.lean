import EcmaTree.Proofs.Grammar.Legality.Primary

/-!
# Legal statements

The body of a loop and of a labeled statement is read with one more label, which goes out of
scope after it. Whether the body of a labeled statement is a loop has been decided by its first
token. A directive changes the scope of all statements after it, so strict mode is on in the
scope of the whole body that it begins.
-/

namespace EcmaTree.Legality

open EcmaTree.Parser EcmaTree.Grammar EcmaTree.Reading Node

variable {options : ParseOptions} {d : Descent} {σ : Scope} {front : Nat}
  {s u : ParseState}

theorem stands_pushLabel (hs : s.Stands σ front) (label : Label) :
    (s.pushLabel label).Stands (σ.push label) front := by
  obtain ⟨rfl, hplaced, hbehind⟩ := hs
  exact ⟨rfl, hplaced, hbehind⟩

theorem stands_popLabel {label : Label} (hs : s.Stands (σ.push label) front) :
    s.popLabel.Stands σ front := by
  obtain ⟨hscope, hplaced, hbehind⟩ := hs
  refine ⟨?_, hplaced, hbehind⟩
  unfold ParseState.popLabel
  rw [hscope]
  rfl

theorem stands_obeyed (hs : s.Stands σ front) (text : String) :
    (obeyed text s).Stands { σ with strict := σ.strict || text == "use strict" } front := by
  obtain ⟨rfl, hplaced, hbehind⟩ := hs
  unfold obeyed
  cases text == "use strict" with
  | true => exact ⟨by simp, hplaced, hbehind⟩
  | false => exact ⟨by simp, hplaced, hbehind⟩

/-- What a directive is made of. -/
theorem of_directive? {text : String} {statement : Statement}
    (h : directive? statement = some text) :
    ∃ span lit directive, statement = .expressionStatement span (.literal lit) directive ∧
      (∃ value, lit.value = .string value) ∧ lit.span.start.offset = span.start.offset ∧
      text = unquoted lit.raw := by
  unfold directive? at h
  split at h
  · split at h
    · rename_i value hvalue
      split at h
      · rename_i hstart
        cases h
        exact ⟨_, _, _, rfl, ⟨value, hvalue⟩, by simpa using hstart, rfl⟩
      · cases h
    · cases h
  · cases h

/-- A statement that is a string literal is a directive where directives may stand. -/
theorem not_isStringStatement {statement : Statement} (h : directive? statement = none) :
    isStringStatement statement = false := by
  unfold directive? at h
  unfold isStringStatement
  split at h <;> grind

/-- What the quotes are taken off from is the text between them. -/
theorem written_of_isQuoted {raw : String} (h : IsQuoted raw.toList) :
    ∃ quote, (quote = '\x22' ∨ quote = '\x27') ∧
      raw.toList = quote :: ((unquoted raw).toList ++ [quote]) := by
  obtain ⟨quote, text, hquote, hraw⟩ := h
  have htext : (unquoted raw).toList = text := by
    rw [unquoted, String.toList_ofList, hraw, List.drop_succ_cons, List.drop_zero,
      List.dropLast_concat]
  exact ⟨quote, hquote, htext ▸ hraw⟩

/-- A token that is a punctuation mark is neither of the words of a loop over keys or values. -/
theorem no_each_of_kind {k : TokenKind} (h : s.kind = k) (hin : k ≠ .keyword .in)
    (hname : k ≠ .name) : s.kind ≠ .keyword .in ∧ s.isWord "of" = false := by
  refine ⟨h ▸ hin, ?_⟩
  simp [ParseState.isWord, h, hname]

/-- A directive is legal in every scope, and it is the one for strict mode if its text is. -/
theorem markDirective_of_directive? {text : String} {statement : Statement}
    (h : directive? statement = some text) (hs : statement.IsFormed options σ) :
    (∀ σ, (markDirective text statement).IsFormed options σ) ∧
      (markDirective text statement).isUseStrict = (text == "use strict") ∧
      IsDirective (markDirective text statement) := by
  obtain ⟨span, lit, directive, rfl, ⟨value, hvalue⟩, hstart, rfl⟩ := of_directive? h
  have hquoted := (hs.everywhere.part List.mem_cons_self).here.form
  refine ⟨fun σ => isFormed_of_one (.free rfl) rfl
    (isFormed_leaf ⟨trivial, trivial, hquoted, trivial⟩ rfl), ?_, ?_⟩
  · simp [markDirective, isUseStrict]
  · obtain ⟨quote, hquote, hwritten⟩ := written_of_isQuoted (hquoted value hvalue)
    exact .intro (by simp [isStringStatement, hvalue, hstart]) hquote hwritten

theorem isUseStrict_of_unmarked {statement : Statement} (h : mark? statement = none) :
    isUseStrict statement = false := by
  cases statement with
  | expressionStatement span value directive =>
    cases directive with
    | none => rfl
    | some text => cases h
  | _ => rfl

/-- Statements that are not marked do not turn strict mode on. -/
theorem any_isUseStrict_of_isUnmarked {statements : List Statement} (h : IsUnmarked statements) :
    statements.any isUseStrict = false :=
  List.any_eq_false.mpr fun x hx => by simp [isUseStrict_of_unmarked (h x hx)]

theorem isFormed_jumpOf {jump : Jump} {span : Span} {label : Option Identifier}
    (h : σ.labels.any (isJumpTarget jump (label.map Identifier.name)) = true)
    (hname : ∀ name, label = some name → Keyword.ofWord? name.name = none) :
    (jumpOf jump span label).IsFormed options σ := by
  cases jump with
  | «break» => exact isFormed_leaf ⟨h, hname, trivial, trivial⟩ rfl
  | «continue» => exact isFormed_leaf ⟨h, hname, trivial, trivial⟩ rfl

theorem legal_jumpLabel {label : Option Identifier} (hs : s.Stands σ front)
    (h : JumpLabel s label u) :
    u.Stands σ front ∧ ∀ name, label = some name → Keyword.ofWord? name.name = none := by
  cases h with
  | none ends => exact ⟨stands_of_ends hs ends, nofun⟩
  | some label_ok ends =>
    refine ⟨stands_of_ends (stands_of_identifier hs label_ok) ends, ?_⟩
    rintro name ⟨⟩
    exact not_keyword_of_identifier hs label_ok

theorem legal_jumpStatement {jump : Jump} {r : Statement} (hs : s.Stands σ front)
    (h : jumpStatement jump s = .ok r u) : StatementLegal options σ front false r u := by
  obtain ⟨s₁, label, word, hlabel, target, rfl⟩ := of_jumpStatement h
  obtain ⟨hu, hname⟩ := legal_jumpLabel (stands_of_advance hs word) hlabel
  refine ⟨hu, isFormed_jumpOf (hu.scope_eq ▸ target) hname, ?_, ?_⟩ <;> cases jump <;> rfl

section Rules

/- The answers that a rule depends on obey the scope in which they are asked for. -/
variable (hd : ∀ g σ front s r u, s.Stands σ front → d g s = .ok r u →
  g.Obeys options σ front s r u)

include hd

theorem legal_statements {inPrologue : Bool} {stop : TokenKind} {r : List Statement}
    (hs : s.Stands σ front) (h : Statements d inPrologue stop s r u) :
    u.Stands { σ with strict := σ.strict || r.any isUseStrict } front ∧
      (∀ x ∈ r, x.IsFormed options u.scope) ∧ (inPrologue = false → IsUnmarked r) ∧
      (inPrologue = true → IsPrologue r) := by
  cases h with
  | closed different closing =>
    exact ⟨by simpa using stands_of_takes hs closing, nofun, nofun, fun _ => .rest nofun nofun⟩
  | ended => exact ⟨by simpa using hs, nofun, nofun, fun _ => .rest nofun nofun⟩
  | directive more_text prologue statement_ok isDirective more =>
    obtain ⟨h₁, hformed, -⟩ := hd _ _ _ _ _ _ hs statement_ok
    obtain ⟨hu, hrest, -, htail⟩ := hd _ _ _ _ _ _ (stands_obeyed h₁ _) more
    obtain ⟨hlegal, hmarked, hhead⟩ := markDirective_of_directive? isDirective hformed
    refine ⟨?_, List.forall_mem_cons.mpr ⟨hlegal _, hrest⟩, ?_,
      fun _ => .directive hhead (htail rfl)⟩
    · rwa [List.any_cons, hmarked, ← Bool.or_assoc]
    · simp [prologue]
  | statement more_text not_directive statement_ok more =>
    obtain ⟨h₁, hlegal, hhead, -⟩ := hd _ _ _ _ _ _ hs statement_ok
    obtain ⟨hu, hrest, htail, -⟩ := hd _ _ _ _ _ _ h₁ more
    have hunmarked : IsUnmarked _ := List.forall_mem_cons.mpr ⟨hhead, htail rfl⟩
    -- After the prologue no statement is marked, so the scope is the same to the end.
    have hσ : u.Stands σ front := by simpa [any_isUseStrict_of_isUnmarked (htail rfl)] using hu
    refine ⟨?_, List.forall_mem_cons.mpr ⟨hσ.scope_eq.symm ▸ hlegal, hrest⟩, fun _ => hunmarked,
      fun hp => .rest ?_ hunmarked⟩
    · rw [any_isUseStrict_of_isUnmarked hunmarked]
      simpa using hσ
    · rintro x ⟨⟩
      exact not_isStringStatement (not_directive hp)

theorem legal_declaratorRead {inFor : Bool} {kind : VariableKind} {r : Declarator}
    (hs : s.Stands σ front) (h : DeclaratorRead d inFor kind s r u) :
    u.Stands σ front ∧ r.IsFormed options σ ∧
      ((inFor = true → u.kind ≠ .keyword .in ∧ u.isWord "of" = false) → r.IsInitialized kind) := by
  cases h with
  | initialized target_ok legal eq init_ok =>
    obtain ⟨h₁, ht, hplain, -⟩ := legal_bindingAtom hd hs target_ok
    obtain ⟨hu, hv⟩ := legal_value hd (stands_of_takes h₁ eq) init_ok
    refine ⟨hu, ?_, fun _ => trivial⟩
    exact isFormed_of_two ⟨⟨h₁.scope_eq ▸ legal, hplain⟩, trivial, trivial, trivial⟩ rfl ht
      (isFormed_of_one (.free rfl) rfl hv)
  | bare target_ok legal no_value allowed =>
    obtain ⟨hu, ht, hplain, -⟩ := legal_bindingAtom hd hs target_ok
    refine ⟨hu, ?_, fun hnext => allowed.resolve_left ?_⟩
    · exact isFormed_of_two ⟨⟨hu.scope_eq ▸ legal, hplain⟩, trivial, trivial, trivial⟩ rfl ht
        (isFormed_leaf (.free rfl) rfl)
    · rintro ⟨hfor, hin | hof⟩
      · exact (hnext hfor).1 hin
      · exact Bool.false_ne_true ((hnext hfor).2.symm.trans hof)

theorem legal_declarators {inFor : Bool} {kind : VariableKind} {r : List Declarator}
    (hs : s.Stands σ front) (h : Declarators d inFor kind s r u) :
    u.Stands σ front ∧ (∀ x ∈ r, x.IsFormed options σ) ∧ r ≠ [] ∧
      ((inFor = true → u.kind ≠ .keyword .in ∧ u.isWord "of" = false) →
        ∀ x ∈ r, x.IsInitialized kind) := by
  cases h with
  | last first_ok =>
    obtain ⟨hu, hfirst, hinit⟩ := legal_declaratorRead hd hs first_ok
    exact ⟨hu, List.forall_mem_singleton.mpr hfirst, List.cons_ne_nil _ _,
      fun hnext => List.forall_mem_singleton.mpr (hinit hnext)⟩
  | more first_ok comma more =>
    obtain ⟨h₁, hfirst, hinit⟩ := legal_declaratorRead hd hs first_ok
    obtain ⟨hu, hrest, -, hinits⟩ := hd _ _ _ _ _ _ (stands_of_takes h₁ comma) more
    -- A comma is neither of the words of a loop over keys or values.
    have hfirst_init := hinit fun _ => no_each_of_kind comma.1 nofun nofun
    exact ⟨hu, List.forall_mem_cons.mpr ⟨hfirst, hrest⟩, List.cons_ne_nil _ _,
      fun hnext => List.forall_mem_cons.mpr ⟨hfirst_init, hinits hnext⟩⟩

omit hd in
theorem isFormed_declaration {span : Span} {kind : VariableKind} {list : List Declarator}
    (h : ∀ x ∈ list, x.IsFormed options σ) (hne : list ≠ []) :
    Node.IsFormed options σ (.declaration span kind (.ofList list)) :=
  isFormed_of_one ⟨trivial, trivial, by rwa [HasForm, toList_ofList], trivial⟩ rfl
    (isFormed_ofList.mpr h)

omit hd in
theorem isSettled_declaration (span : Span) {kind : VariableKind} {list : List Declarator}
    (h : ∀ x ∈ list, x.IsInitialized kind) :
    IsSettled (.declaration span kind (.ofList list)) := by
  rwa [IsSettled, toList_ofList]

omit hd in
theorem isFormed_initDeclaration {span : Span} {kind : VariableKind} {list : List Declarator}
    (h : ∀ x ∈ list, x.IsFormed options σ) (hne : list ≠ [])
    (hinit : ∀ x ∈ list, x.IsInitialized kind) :
    Node.IsFormed options σ (.initDeclaration (.declaration span kind (.ofList list))) :=
  isFormed_of_one ⟨trivial, trivial, isSettled_declaration span hinit, trivial⟩ rfl
    (isFormed_declaration h hne)

theorem legal_declarationStatement {kind : VariableKind} {r : Statement} (hs : s.Stands σ front)
    (h : declarationStatement d kind s = .ok r u) : StatementLegal options σ front false r u := by
  obtain ⟨s₁, list, s₂, word, list_ok, ends, rfl⟩ := of_declarationStatement h
  obtain ⟨h₂, hlist, hne, hinit⟩ := hd _ _ _ _ _ _ (stands_of_advance hs word) list_ok
  have hform := isSettled_declaration (u.spanFrom s.place) (hinit nofun)
  refine ⟨stands_of_ends h₂ ends, ?_, rfl, rfl⟩
  exact isFormed_of_one ⟨trivial, trivial, hform, trivial⟩ rfl (isFormed_declaration hlist hne)

theorem legal_returnStatement {r : Statement} (hs : s.Stands σ front)
    (h : returnStatement d options s = .ok r u) : StatementLegal options σ front false r u := by
  cases of_returnStatement h with
  | empty allowed word ends =>
    exact ⟨stands_of_ends (stands_of_advance hs word) ends,
      isFormed_of_one ⟨hs.scope_eq ▸ allowed, trivial, trivial, trivial⟩ rfl
        (isFormed_leaf (.free rfl) rfl), rfl, rfl⟩
  | value allowed word value_ok ends =>
    obtain ⟨h₂, hv, -⟩ := legal_expression hd (stands_of_advance hs word) value_ok
    exact ⟨stands_of_ends h₂ ends,
      isFormed_of_one ⟨hs.scope_eq ▸ allowed, trivial, trivial, trivial⟩ rfl
        (isFormed_of_one (.free rfl) rfl hv), rfl, rfl⟩

theorem legal_headExpression {e : Expression} (hs : s.Stands σ front)
    (h : headExpression d s = .ok e u) : u.Stands σ front ∧ e.IsFormed options σ := by
  obtain ⟨s₁, s₂, opening, value_ok, closing⟩ := of_headExpression h
  obtain ⟨h₂, he, -⟩ := legal_expression hd (stands_of_takes hs opening) value_ok
  exact ⟨stands_of_takes h₂ closing, he⟩

theorem legal_ifStatement {r : Statement}
    (he : ∀ s r u, d .statement s = .ok r u → r.EndsBefore u) (hs : s.Stands σ front)
    (h : ifStatement d s = .ok r u) : StatementLegal options σ front false r u := by
  obtain ⟨s₁, test, s₂, consequent, s₃, alternate, word, test_ok, consequent_ok, alternate_ok,
    rfl⟩ := of_ifStatement h
  obtain ⟨h₂, ht⟩ := legal_headExpression hd (stands_of_advance hs word) test_ok
  obtain ⟨h₃, hc, hplain, -⟩ := hd _ _ _ _ _ _ h₂ consequent_ok
  have halternate : u.Stands σ front ∧ alternate.IsFormed options σ ∧
      (alternate ≠ .absent → consequent.hasDanglingIf = false) ∧
      ∀ x ∈ alternate.toOption, mark? x = none := by
    cases alternate_ok with
    | absent => exact ⟨h₃, isFormed_leaf (.free rfl) rfl, fun ha => absurd rfl ha, nofun⟩
    | present word statement_ok =>
      obtain ⟨hu, ha, hplain', -⟩ := hd _ _ _ _ _ _ (stands_of_takes h₃ word) statement_ok
      have hclosed := Dangling.closed_of_endsBefore (he _ _ _ consequent_ok) word.1
      refine ⟨hu, isFormed_of_one (.free rfl) rfl ha, fun _ => hclosed, ?_⟩
      rintro x ⟨⟩
      exact hplain'
  obtain ⟨hu, ha, hclosed, hplain'⟩ := halternate
  exact ⟨hu, isFormed_of_three ⟨trivial, hclosed, ⟨hplain, hplain'⟩, trivial⟩ rfl ht hc ha, rfl,
    rfl⟩

theorem legal_loopBody {r : Statement} (hs : s.Stands σ front) (h : loopBody d s = .ok r u) :
    u.Stands σ front ∧ r.IsFormed options (σ.push ⟨none, true⟩) ∧ mark? r = none := by
  obtain ⟨t, body_ok, rfl⟩ := of_loopBody h
  obtain ⟨ht, hr, hplain, -⟩ := hd _ _ _ _ _ _ (stands_pushLabel hs _) body_ok
  exact ⟨stands_popLabel ht, hr, hplain⟩

theorem legal_whileStatement {r : Statement} (hs : s.Stands σ front)
    (h : whileStatement d s = .ok r u) : StatementLegal options σ front true r u := by
  obtain ⟨s₁, test, s₂, body, word, test_ok, body_ok, rfl⟩ := of_whileStatement h
  obtain ⟨h₂, ht⟩ := legal_headExpression hd (stands_of_advance hs word) test_ok
  obtain ⟨hu, hb, hplain⟩ := legal_loopBody hd h₂ body_ok
  refine ⟨hu, isFormed_of_parts ⟨trivial, trivial, hplain, trivial⟩ ?_, rfl, rfl⟩
  exact List.forall_mem_cons.mpr ⟨ht, List.forall_mem_singleton.mpr hb⟩

theorem legal_optionalExpression {stop : TokenKind} {r : Node (.option .expression)}
    (hs : s.Stands σ front) (h : OptionalExpression d stop s r u) :
    u.Stands σ front ∧ r.IsFormed options σ := by
  cases h with
  | absent => exact ⟨hs, isFormed_leaf (.free rfl) rfl⟩
  | present value_ok =>
    obtain ⟨hu, he, -⟩ := legal_expression hd hs value_ok
    exact ⟨hu, isFormed_of_one (.free rfl) rfl he⟩

theorem legal_forParts {start : Place} {init : Node (.option .forInit)} {r : Statement}
    (hs : s.Stands σ front) (hi : init.IsFormed options σ) (h : forParts d start init s = .ok r u) :
    StatementLegal options σ front true r u := by
  obtain ⟨s₁, test, s₂, s₃, update, s₄, s₅, body, first, test_ok, second, update_ok, closing,
    body_ok, rfl⟩ := of_forParts h
  obtain ⟨h₂, ht⟩ := legal_optionalExpression hd (stands_of_takes hs first) test_ok
  obtain ⟨h₄, hn⟩ := legal_optionalExpression hd (stands_of_takes h₂ second) update_ok
  obtain ⟨hu, hb, hplain⟩ := legal_loopBody hd (stands_of_takes h₄ closing) body_ok
  refine ⟨hu, isFormed_of_parts ⟨trivial, trivial, hplain, trivial⟩ ?_, rfl, rfl⟩
  exact List.forall_mem_cons.mpr ⟨hi, List.forall_mem_cons.mpr
    ⟨ht, List.forall_mem_cons.mpr ⟨hn, List.forall_mem_singleton.mpr hb⟩⟩⟩

theorem legal_forEach {start : Place} {left : Node .forTarget} {r : Statement}
    (hs : s.Stands σ front)
    (hl : left.IsFormed options σ) (h : ForEach d start left s r u) :
    StatementLegal options σ front true r u := by
  cases h with
  | keys word right_ok closing body_ok =>
    obtain ⟨h₂, hr, -⟩ := legal_expression hd (stands_of_takes hs word) right_ok
    obtain ⟨hu, hb, hplain⟩ := legal_loopBody hd (stands_of_takes h₂ closing) body_ok
    refine ⟨hu, isFormed_of_parts ⟨trivial, trivial, hplain, trivial⟩ ?_, rfl, rfl⟩
    exact List.forall_mem_cons.mpr
      ⟨hl, List.forall_mem_cons.mpr ⟨hr, List.forall_mem_singleton.mpr hb⟩⟩
  | values not_in word right_ok closing body_ok =>
    obtain ⟨h₂, hr⟩ := legal_value hd (stands_of_advance hs word) right_ok
    obtain ⟨hu, hb, hplain⟩ := legal_loopBody hd (stands_of_takes h₂ closing) body_ok
    refine ⟨hu, isFormed_of_parts ⟨trivial, trivial, hplain, trivial⟩ ?_, rfl, rfl⟩
    exact List.forall_mem_cons.mpr
      ⟨hl, List.forall_mem_cons.mpr ⟨hr, List.forall_mem_singleton.mpr hb⟩⟩

theorem legal_forDeclaration {start : Place} {kind : VariableKind} {r : Statement}
    (hs : s.Stands σ front) (h : ForDeclaration d start kind s r u) :
    StatementLegal options σ front true r u := by
  cases h with
  | each word list_ok next each_ok =>
    obtain ⟨h₂, hlist, hne, -⟩ := hd _ _ _ _ _ _ (stands_of_advance hs word) list_ok
    refine legal_forEach hd h₂ ?_ each_ok
    exact isFormed_of_one ⟨trivial, trivial, ⟨_, _, _, rfl⟩, trivial⟩ rfl
      (isFormed_declaration hlist hne)
  | parts word list_ok parts_ok =>
    obtain ⟨h₂, hlist, hne, hinit⟩ := hd _ _ _ _ _ _ (stands_of_advance hs word) list_ok
    -- The semicolon behind the list is neither of the words of a loop over keys or values.
    obtain ⟨_, _, _, _, _, _, _, _, first, -⟩ := of_forParts parts_ok
    have hsettled := hinit fun _ => no_each_of_kind first.1 nofun nofun
    refine legal_forParts hd h₂ ?_ parts_ok
    exact isFormed_of_one (.free rfl) rfl (isFormed_initDeclaration hlist hne hsettled)

theorem legal_forExpression {start : Place} {r : Statement} (hs : s.Stands σ front)
    (h : ForExpression d start s r u) : StatementLegal options σ front true r u := by
  cases h with
  | each init_ok next target_ok legal each_ok =>
    obtain ⟨h₁, hi, -⟩ := legal_expressionWith hd hs init_ok
    have hc := converts_of_toPattern target_ok
    have htarget := isFormed_of_converts hc (isSpreadless_of_check legal) hi
    refine legal_forEach hd h₁ ?_ each_ok
    exact isFormed_of_one ⟨hc.not_isRest, h₁.scope_eq ▸ legal, trivial, trivial⟩ rfl htarget
  | parts init_ok parts_ok =>
    obtain ⟨h₁, hi, -⟩ := legal_expressionWith hd hs init_ok
    refine legal_forParts hd h₁ ?_ parts_ok
    refine isFormed_of_one (.free rfl) rfl ?_
    exact isFormed_of_one (.free rfl) rfl hi

theorem legal_forStatement {r : Statement} (hs : s.Stands σ front)
    (h : forStatement d s = .ok r u) :
    StatementLegal options σ front true r u := by
  obtain ⟨s₁, s₂, word, opening, head⟩ := of_forStatement h
  have h₂ := stands_of_takes (stands_of_advance hs word) opening
  cases head with
  | empty next parts_ok =>
    refine legal_forParts hd h₂ ?_ parts_ok
    exact isFormed_leaf (.free rfl) rfl
  | declaration begins declaration_ok => exact legal_forDeclaration hd h₂ declaration_ok
  | expression expression_ok => exact legal_forExpression hd h₂ expression_ok

theorem legal_throwStatement {r : Statement} (hs : s.Stands σ front)
    (h : throwStatement d s = .ok r u) : StatementLegal options σ front false r u := by
  obtain ⟨s₁, argument, s₂, word, argument_ok, ends, rfl⟩ := of_throwStatement h
  obtain ⟨h₂, ha, -⟩ := legal_expression hd (stands_of_advance hs word) argument_ok
  exact ⟨stands_of_ends h₂ ends, isFormed_of_one (.free rfl) rfl ha, rfl, rfl⟩

/-- A block that does not begin a function has no directives. -/
theorem legal_plainBlock {b : Block} (hs : s.Stands σ front) (h : block d false s = .ok b u) :
    u.Stands σ front ∧ b.IsFormed options σ ∧ IsUnmarked b.content := by
  obtain ⟨s₁, body, opening, hbody, rfl⟩ := of_block h
  obtain ⟨hu, hlegal, hunmarked, -⟩ := hd _ _ _ _ _ _ (stands_of_takes hs opening) hbody
  have hσ : u.Stands σ front := by
    simpa [any_isUseStrict_of_isUnmarked (hunmarked rfl)] using hu
  refine ⟨hσ, isFormed_of_one (.free rfl) rfl (isFormed_ofList.mpr (hσ.scope_eq ▸ hlegal)), ?_⟩
  rw [content, toList_ofList]
  exact hunmarked rfl

theorem legal_catchClause {r : Node .handler} (hs : s.Stands σ front)
    (h : catchClause d s = .ok r u) : u.Stands σ front ∧ r.IsFormed options σ := by
  obtain ⟨s₁, s₂, param, s₃, s₄, body, word, opening, param_ok, legal, closing, body_ok, rfl⟩ :=
    of_catchClause h
  obtain ⟨h₃, hp, hplain, -⟩ :=
    legal_bindingAtom hd (stands_of_takes (stands_of_advance hs word) opening) param_ok
  obtain ⟨hu, hb, hunmarked⟩ := legal_plainBlock hd (stands_of_takes h₃ closing) body_ok
  refine ⟨hu, ?_⟩
  exact isFormed_of_two ⟨⟨h₃.scope_eq ▸ legal, hplain⟩, trivial, hunmarked, trivial⟩ rfl hp hb

theorem legal_tryStatement {r : Statement} (hs : s.Stands σ front)
    (h : tryStatement d s = .ok r u) :
    StatementLegal options σ front false r u := by
  obtain ⟨s₁, body, s₂, handler, s₃, finalizer, word, body_ok, handler_ok, finalizer_ok, hcaught,
    rfl⟩ := of_tryStatement h
  obtain ⟨h₂, hb, hunmarked⟩ := legal_plainBlock hd (stands_of_advance hs word) body_ok
  have hhandler : s₃.Stands σ front ∧ (ofOption handler).IsFormed options σ := by
    cases handler_ok with
    | none => exact ⟨h₂, isFormed_leaf (.free rfl) rfl⟩
    | some word clause_ok =>
      obtain ⟨h₃, hc⟩ := legal_catchClause hd h₂ clause_ok
      exact ⟨h₃, isFormed_of_one (.free rfl) rfl hc⟩
  have hfinalizer : u.Stands σ front ∧ (ofOption finalizer).IsFormed options σ ∧
      ∀ b ∈ finalizer, IsUnmarked b.content := by
    cases finalizer_ok with
    | none => exact ⟨hhandler.1, isFormed_leaf (.free rfl) rfl, nofun⟩
    | some word block_ok =>
      obtain ⟨hu, hf, hunmarked⟩ := legal_plainBlock hd (stands_of_takes hhandler.1 word) block_ok
      refine ⟨hu, isFormed_of_one (.free rfl) rfl hf, ?_⟩
      rintro b ⟨⟩
      exact hunmarked
  obtain ⟨hu, hf, hlast⟩ := hfinalizer
  have hform : HasForm (.tryStatement (u.spanFrom s.place) body (ofOption handler)
      (ofOption finalizer)) := by
    rw [HasForm, toOption_ofOption, toOption_ofOption]
    exact ⟨hcaught, hunmarked, hlast⟩
  exact ⟨hu, isFormed_of_three ⟨trivial, trivial, hform, trivial⟩ rfl hb hhandler.2 hf, rfl, rfl⟩

theorem legal_labeledStatement {start : Place} {label : Identifier} {r : Statement}
    (hs : s.Stands σ front) (hlabel : Keyword.ofWord? label.name = none)
    (h : labeledStatement d start label s = .ok r u) :
    StatementLegal options σ front false r u := by
  obtain ⟨s₁, body, t, fresh, word, body_ok, rfl, rfl⟩ := of_labeledStatement h
  have hadvanced := stands_of_advance hs word
  obtain ⟨ht, hb, hplain, hloop⟩ := hd _ _ _ _ _ _ (stands_pushLabel hadvanced _) body_ok
  -- The label is one of a loop exactly if the statement that it was put on is one.
  have hbody : body.IsFormed options (σ.push ⟨some label.name, body.isLoop⟩) := by
    rw [hloop]
    exact hb
  refine ⟨stands_popLabel ht, ?_, rfl, rfl⟩
  exact isFormed_of_parts ⟨hs.scope_eq ▸ fresh, hlabel, hplain, trivial⟩
    (List.forall_mem_singleton.mpr hbody)

theorem legal_expressionStatement {r : Statement} (hs : s.Stands σ front)
    (h : expressionStatement d s = .ok r u) : StatementLegal options σ front s.kind.isLoop r u := by
  cases of_expressionStatement h with
  | labeled name label_ok colon body_ok =>
    obtain ⟨h₁, hlabel, hk⟩ := legal_expression hd hs label_ok
    rw [hk]
    exact legal_labeledStatement hd h₁ hlabel.proper body_ok
  | plain value_ok ends =>
    obtain ⟨h₁, he, hk⟩ := legal_expression hd hs value_ok
    rw [hk]
    exact ⟨stands_of_ends h₁ ends, isFormed_of_one (.free rfl) rfl he, rfl, rfl⟩

theorem legal_functionStatement {r : Statement} (hs : s.Stands σ front)
    (h : functionStatement d s = .ok r u) : StatementLegal options σ front false r u := by
  obtain ⟨s₁, f, word, function_ok, rfl⟩ := of_functionStatement h
  obtain ⟨hu, hf⟩ := legal_function hd (stands_of_advance hs word) function_ok
  exact ⟨hu, isFormed_toDeclaration hf, rfl, rfl⟩

omit hd in
theorem not_isLoop_of_begins {kind : VariableKind} (h : BeginsDeclaration kind s) :
    s.kind.isLoop = false := by
  cases kind with
  | «var» | const => exact congrArg TokenKind.isLoop h
  | «let» => exact congrArg TokenKind.isLoop (ParseState.kind_of_isWord h.1)

theorem legal_statement {r : Statement}
    (he : ∀ s r u, d .statement s = .ok r u → r.EndsBefore u) (hs : s.Stands σ front)
    (h : StatementRead d options s r u) :
    StatementLegal options σ front s.kind.isLoop r u := by
  have word : ∀ {k : TokenKind}, s.kind = k → StatementLegal options σ front k.isLoop r u →
      StatementLegal options σ front s.kind.isLoop r u := by
    rintro k rfl hr
    exact hr
  cases h with
  | declaration begins statement_ok =>
    rw [not_isLoop_of_begins begins]
    exact legal_declarationStatement hd hs statement_ok
  | block block_ok =>
    obtain ⟨s₁, body, opening, -, -⟩ := of_block block_ok
    obtain ⟨hu, hb, hunmarked⟩ := legal_plainBlock hd hs block_ok
    exact word opening.1 ⟨hu, isFormed_of_one ⟨trivial, trivial, hunmarked, trivial⟩ rfl hb, rfl,
      rfl⟩
  | empty kind statement_ok =>
    obtain ⟨hsemi, rfl⟩ := of_emptyStatement statement_ok
    exact word kind ⟨stands_of_advance hs hsemi, isFormed_leaf (.free rfl) rfl, rfl,
      rfl⟩
  | function kind statement_ok => exact word kind (legal_functionStatement hd hs statement_ok)
  | returned kind statement_ok => exact word kind (legal_returnStatement hd hs statement_ok)
  | conditional kind statement_ok => exact word kind (legal_ifStatement hd he hs statement_ok)
  | whileLoop kind statement_ok => exact word kind (legal_whileStatement hd hs statement_ok)
  | forLoop kind statement_ok => exact word kind (legal_forStatement hd hs statement_ok)
  | jump kind statement_ok =>
    rcases kind with kind | kind <;> exact word kind (legal_jumpStatement hs statement_ok)
  | thrown kind statement_ok => exact word kind (legal_throwStatement hd hs statement_ok)
  | guarded kind statement_ok => exact word kind (legal_tryStatement hd hs statement_ok)
  | expression statement_ok => exact legal_expressionStatement hd hs statement_ok

end Rules

end EcmaTree.Legality
