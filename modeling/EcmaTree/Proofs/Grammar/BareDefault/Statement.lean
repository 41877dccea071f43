import EcmaTree.Proofs.Grammar.BareDefault.Primary

/-!
# Bare defaults of statements

A statement has no spine. Its expressions settle their pending defaults themselves, apart
from the one in the head of a `for` over keys or values, which becomes a pattern.
-/

namespace EcmaTree.BareDefault

open EcmaTree.Parser EcmaTree.Grammar EcmaTree.Reading EcmaTree.Trail Node ParseState

variable {d : Descent} {s u : ParseState}

theorem isHeld_markDirective (text : String) {statement : Statement} (h : statement.IsHeld) :
    (markDirective text statement).IsHeld := by
  cases statement <;> exact h

theorem isHeld_jumpOf (jump : Jump) (span : Span) (label : Option Identifier) :
    (jumpOf jump span label).IsHeld := by
  cases jump <;> rfl

theorem isHeld_and {c c' : Category} {n : Node c} {m : Node c'} (hn : n.IsHeld)
    (hm : m.IsHeld) : (n.defaultsHeld false false && m.defaultsHeld false false) = true :=
  Bool.and_eq_true_iff.mpr ⟨hn, hm⟩

section Rules

/- The answers that a rule depends on follow their token streams and hold what they should. -/
variable (ht : ∀ g s r u, d g s = .ok r u → g.IsBounded → g.Traces s u)
  (hd : ∀ g s r u, d g s = .ok r u → g.IsBounded → s.stream.IsPlaced → g.Holds s r u)

include ht hd

theorem isHeld_of_statements {inPrologue : Bool} {stop : TokenKind} {r : List Statement}
    (hs : s.stream.IsPlaced) (h : Statements d inPrologue stop s r u) : ∀ x ∈ r, x.IsHeld := by
  cases h with
  | closed => nofun
  | ended => nofun
  | directive more_text prologue statement_ok isDirective more =>
    rename_i statement s₁ text rest
    have h₁ := placed hs (follows_of_goal ht statement_ok trivial)
    have h₁' : (obeyed text s₁).stream.IsPlaced := by rwa [stream_obeyed]
    have hfirst := isHeld_markDirective text (hd _ _ _ _ statement_ok trivial hs)
    exact List.forall_mem_cons.mpr ⟨hfirst, hd _ _ _ _ more trivial h₁'⟩
  | statement more_text not_directive statement_ok more =>
    have h₁ := placed hs (follows_of_goal ht statement_ok trivial)
    exact List.forall_mem_cons.mpr
      ⟨hd _ _ _ _ statement_ok trivial hs, hd _ _ _ _ more trivial h₁⟩

theorem isHeld_of_declaratorRead {inFor : Bool} {kind : VariableKind} {r : Declarator}
    (hs : s.stream.IsPlaced) (h : DeclaratorRead d inFor kind s r u) : r.IsHeld := by
  cases h with
  | initialized target_ok legal eq init_ok =>
    have h₁ := placed hs (follows_of_bindingAtom ht target_ok)
    have h₂ := placed h₁ (follows_of_takes eq (by decide))
    exact isHeld_and (isHeld_of_bindingAtom hd hs target_ok) (isHeld_of_value hd h₂ init_ok)
  | bare target_ok => exact isHeld_and (isHeld_of_bindingAtom hd hs target_ok) rfl

theorem isHeld_of_declarators {inFor : Bool} {kind : VariableKind} {r : List Declarator}
    (hs : s.stream.IsPlaced) (h : Declarators d inFor kind s r u) : ∀ x ∈ r, x.IsHeld := by
  cases h with
  | last first_ok =>
    exact List.forall_mem_singleton.mpr (isHeld_of_declaratorRead ht hd hs first_ok)
  | more first_ok comma more =>
    have h₁ := placed hs (follows_of_declaratorRead ht first_ok)
    have h₂ := placed h₁ (follows_of_takes comma (by decide))
    exact List.forall_mem_cons.mpr
      ⟨isHeld_of_declaratorRead ht hd hs first_ok, hd _ _ _ _ more trivial h₂⟩

omit ht in
theorem isHeld_of_declarationStatement {kind : VariableKind} {r : Statement}
    (hs : s.stream.IsPlaced) (hb : BeginsDeclaration kind s)
    (h : declarationStatement d kind s = .ok r u) : r.IsHeld := by
  obtain ⟨s₁, list, s₂, ha, hl, -, rfl⟩ := of_declarationStatement h
  have h₁ := placed hs (follows_of_advance (ne_eof_of_begins hb) ha)
  exact defaultsHeld_ofList.mpr (hd _ _ _ _ hl trivial h₁)

theorem isHeld_of_returnStatement {options : ParseOptions} {r : Statement}
    (hs : s.stream.IsPlaced) (hk : s.kind = .keyword .return)
    (h : returnStatement d options s = .ok r u) : r.IsHeld := by
  cases of_returnStatement h with
  | empty => rfl
  | value allowed word value_ok ends =>
    have h₁ := placed hs (follows_of_advance (by simp [hk]) word)
    have hv := isHeld_of_expression ht hd h₁ value_ok
    exact hv

theorem isHeld_of_headExpression {e : Expression} (hs : s.stream.IsPlaced)
    (h : headExpression d s = .ok e u) : e.IsHeld := by
  obtain ⟨s₁, s₂, htakes, he, -⟩ := of_headExpression h
  have h₁ := placed hs (follows_of_takes htakes (by decide))
  exact isHeld_of_expression ht hd h₁ he

theorem isHeld_of_ifStatement {r : Statement} (hs : s.stream.IsPlaced)
    (hk : s.kind = .keyword .if) (h : ifStatement d s = .ok r u) : r.IsHeld := by
  obtain ⟨s₁, test, s₂, consequent, s₃, alternate, ha, htest, hc, halt, rfl⟩ := of_ifStatement h
  have h₁ := placed hs (follows_of_advance (by simp [hk]) ha)
  have h₂ := placed h₁ (follows_of_headExpression ht htest)
  have h₃ := placed h₂ (follows_of_goal ht hc trivial)
  have halternate : alternate.IsHeld := by
    cases halt with
    | absent => rfl
    | present word statement_ok =>
      have h₄ := placed h₃ (follows_of_takes word (by decide))
      have hb := hd _ _ _ _ statement_ok trivial h₄
      exact hb
  have htest' := isHeld_of_headExpression ht hd h₁ htest
  have hconsequent := hd _ _ _ _ hc trivial h₂
  exact Bool.and_eq_true_iff.mpr ⟨isHeld_and htest' hconsequent, halternate⟩

omit ht in
theorem isHeld_of_loopBody {r : Statement} (hs : s.stream.IsPlaced)
    (h : loopBody d s = .ok r u) : r.IsHeld := by
  obtain ⟨t, hb, rfl⟩ := of_loopBody h
  have hs' : (s.pushLabel ⟨none, true⟩).stream.IsPlaced := hs
  exact hd _ _ _ _ hb trivial hs'

theorem isHeld_of_whileStatement {r : Statement} (hs : s.stream.IsPlaced)
    (hk : s.kind = .keyword .while) (h : whileStatement d s = .ok r u) : r.IsHeld := by
  obtain ⟨s₁, test, s₂, body, ha, htest, hb, rfl⟩ := of_whileStatement h
  have h₁ := placed hs (follows_of_advance (by simp [hk]) ha)
  have h₂ := placed h₁ (follows_of_headExpression ht htest)
  exact isHeld_and (isHeld_of_headExpression ht hd h₁ htest) (isHeld_of_loopBody hd h₂ hb)

theorem isHeld_of_optionalExpression {stop : TokenKind} {r : Node (.option .expression)}
    (hs : s.stream.IsPlaced) (h : OptionalExpression d stop s r u) : r.IsHeld := by
  cases h with
  | absent => rfl
  | present value_ok =>
    have hv := isHeld_of_expression ht hd hs value_ok
    exact hv

theorem isHeld_of_forParts {start : Place} {init : Node (.option .forInit)} {r : Statement}
    (hs : s.stream.IsPlaced) (hinit : init.IsHeld) (h : forParts d start init s = .ok r u) :
    r.IsHeld := by
  obtain ⟨s₁, test, s₂, s₃, update, s₄, s₅, body, hsemi, htest, hsemi', hupdate, hclose, hb,
    rfl⟩ := of_forParts h
  have h₁ := placed hs (follows_of_takes hsemi (by decide))
  have h₂ := placed h₁ (follows_of_optionalExpression ht htest)
  have h₃ := placed h₂ (follows_of_takes hsemi' (by decide))
  have h₄ := placed h₃ (follows_of_optionalExpression ht hupdate)
  have h₅ := placed h₄ (follows_of_takes hclose (by decide))
  have htest' := isHeld_of_optionalExpression ht hd h₁ htest
  have hupdate' := isHeld_of_optionalExpression ht hd h₃ hupdate
  have hbody := isHeld_of_loopBody hd h₅ hb
  refine Bool.and_eq_true_iff.mpr ⟨Bool.and_eq_true_iff.mpr ⟨?_, hupdate'⟩, hbody⟩
  exact isHeld_and hinit htest'

theorem isHeld_of_forEach {start : Place} {left : Node .forTarget} {r : Statement}
    (hs : s.stream.IsPlaced) (hleft : left.IsHeld)
    (hn : s.kind = .keyword .in ∨ s.isWord "of" = true) (h : ForEach d start left s r u) :
    r.IsHeld := by
  cases h with
  | keys word right_ok closing body_ok =>
    have h₁ := placed hs (follows_of_takes word (by decide))
    have h₂ := placed h₁ (follows_of_expression ht right_ok)
    have h₃ := placed h₂ (follows_of_takes closing (by decide))
    have hright := isHeld_of_expression ht hd h₁ right_ok
    have hbody := isHeld_of_loopBody hd h₃ body_ok
    exact Bool.and_eq_true_iff.mpr ⟨isHeld_and hleft hright, hbody⟩
  | values not_in word right_ok closing body_ok =>
    have h₁ := placed hs (follows_of_word (hn.resolve_left not_in) word)
    have h₂ := placed h₁ (follows_of_value ht right_ok)
    have h₃ := placed h₂ (follows_of_takes closing (by decide))
    have hright := isHeld_of_value hd h₁ right_ok
    have hbody := isHeld_of_loopBody hd h₃ body_ok
    exact Bool.and_eq_true_iff.mpr ⟨isHeld_and hleft hright, hbody⟩

theorem isHeld_of_forDeclaration {start : Place} {kind : VariableKind} {r : Statement}
    (hs : s.stream.IsPlaced) (hb : BeginsDeclaration kind s)
    (h : ForDeclaration d start kind s r u) : r.IsHeld := by
  cases h with
  | each word list_ok next each_ok =>
    rename_i s₁ declarator s₂
    have h₁ := placed hs (follows_of_advance (ne_eof_of_begins hb) word)
    have h₂ := placed h₁ (follows_of_goal ht list_ok trivial)
    have hlist : (ofList [declarator]).IsHeld :=
      defaultsHeld_ofList.mpr (hd _ _ _ _ list_ok trivial h₁)
    exact isHeld_of_forEach ht hd h₂ hlist next each_ok
  | parts word list_ok parts_ok =>
    rename_i s₁ list s₂
    have h₁ := placed hs (follows_of_advance (ne_eof_of_begins hb) word)
    have h₂ := placed h₁ (follows_of_goal ht list_ok trivial)
    have hlist : (ofList list).IsHeld := defaultsHeld_ofList.mpr (hd _ _ _ _ list_ok trivial h₁)
    exact isHeld_of_forParts ht hd h₂ hlist parts_ok

/-- The head of a `for` over keys or values takes up what its expression holds open. -/
theorem isHeld_of_forExpression {start : Place} {r : Statement} (hs : s.stream.IsPlaced)
    (h : ForExpression d start s r u) : r.IsHeld := by
  cases h with
  | each init_ok next target_ok legal each_ok =>
    rename_i init pending s₁ target
    have h₁ := placed hs (follows_of_expressionWith ht init_ok)
    obtain ⟨⟨hg, -⟩, -⟩ :=
      gathers_of_expressionWith ht hd hs (fun _ => rfl) isBehind_none init_ok
    have htarget : (targetPattern target).IsHeld :=
      defaultsHeld_of_toPattern target_ok hg.isOpen (isSpreadless_of_check legal)
    exact isHeld_of_forEach ht hd h₁ htarget next each_ok
  | parts init_ok parts_ok =>
    rename_i init s₁
    have h₁ := placed hs (follows_of_expressionWith ht init_ok)
    obtain ⟨⟨hg, -⟩, -⟩ :=
      gathers_of_expressionWith ht hd hs (fun _ => rfl) isBehind_none init_ok
    have hinit : (present (initExpression init)).IsHeld := hg.settled rfl
    exact isHeld_of_forParts ht hd h₁ hinit parts_ok

theorem isHeld_of_forStatement {r : Statement} (hs : s.stream.IsPlaced)
    (hk : s.kind = .keyword .for) (h : forStatement d s = .ok r u) : r.IsHeld := by
  obtain ⟨s₁, s₂, ha, htakes, hh⟩ := of_forStatement h
  have h₁ := placed hs (follows_of_advance (by simp [hk]) ha)
  have h₂ := placed h₁ (follows_of_takes htakes (by decide))
  cases hh with
  | empty next parts_ok => exact isHeld_of_forParts ht hd h₂ rfl parts_ok
  | declaration begins declaration_ok =>
    exact isHeld_of_forDeclaration ht hd h₂ begins declaration_ok
  | expression expression_ok => exact isHeld_of_forExpression ht hd h₂ expression_ok

theorem isHeld_of_throwStatement {r : Statement} (hs : s.stream.IsPlaced)
    (hk : s.kind = .keyword .throw) (h : throwStatement d s = .ok r u) : r.IsHeld := by
  obtain ⟨s₁, argument, s₂, ha, he, -, rfl⟩ := of_throwStatement h
  have h₁ := placed hs (follows_of_advance (by simp [hk]) ha)
  have hv := isHeld_of_expression ht hd h₁ he
  exact hv

theorem isHeld_of_catchClause {r : Node .handler} (hs : s.stream.IsPlaced)
    (hk : s.kind = .keyword .catch) (h : catchClause d s = .ok r u) : r.IsHeld := by
  obtain ⟨s₁, s₂, param, s₃, s₄, body, ha, hopen, hp, -, hclose, hb, rfl⟩ := of_catchClause h
  have h₁ := placed hs (follows_of_advance (by simp [hk]) ha)
  have h₂ := placed h₁ (follows_of_takes hopen (by decide))
  have h₃ := placed h₂ (follows_of_bindingAtom ht hp)
  have h₄ := placed h₃ (follows_of_takes hclose (by decide))
  exact isHeld_and (isHeld_of_bindingAtom hd h₂ hp) (isHeld_of_block hd h₄ hb)

theorem isHeld_of_tryStatement {r : Statement} (hs : s.stream.IsPlaced)
    (hk : s.kind = .keyword .try) (h : tryStatement d s = .ok r u) : r.IsHeld := by
  obtain ⟨s₁, body, s₂, handler, s₃, finalizer, ha, hb, hh, hf, -, rfl⟩ := of_tryStatement h
  have h₁ := placed hs (follows_of_advance (by simp [hk]) ha)
  have h₂ := placed h₁ (follows_of_block ht hb)
  have hhandler : (ofOption handler).IsHeld ∧ s₃.stream.IsPlaced := by
    cases hh with
    | none => exact ⟨rfl, h₂⟩
    | some word clause_ok =>
      have hclause := isHeld_of_catchClause ht hd h₂ word clause_ok
      have hf := follows_of_passes (by simp [word]) (passes_of_catchClause ht clause_ok)
      exact ⟨hclause, placed h₂ hf⟩
  have hfinalizer : (ofOption finalizer).IsHeld := by
    cases hf with
    | none => rfl
    | some word block_ok =>
      have h₄ := placed hhandler.2 (follows_of_takes word (by decide))
      have hblock := isHeld_of_block hd h₄ block_ok
      exact hblock
  have hbody := isHeld_of_block hd h₁ hb
  exact Bool.and_eq_true_iff.mpr ⟨isHeld_and hbody hhandler.1, hfinalizer⟩

omit ht in
theorem isHeld_of_labeledStatement {start : Place} {label : Identifier} {r : Statement}
    (hs : s.stream.IsPlaced) (hk : s.kind = .colon)
    (h : labeledStatement d start label s = .ok r u) : r.IsHeld := by
  obtain ⟨s₁, body, t, -, ha, hb, -, rfl⟩ := of_labeledStatement h
  have h₁ := placed hs (follows_of_advance (by simp [hk]) ha)
  have h₁' : (s₁.pushLabel ⟨some label.name, s₁.kind.isLoop⟩).stream.IsPlaced := h₁
  have hbody := hd _ _ _ _ hb trivial h₁'
  exact hbody

theorem isHeld_of_expressionStatement {r : Statement} (hs : s.stream.IsPlaced)
    (h : expressionStatement d s = .ok r u) : r.IsHeld := by
  cases of_expressionStatement h with
  | labeled name label_ok colon body_ok =>
    have h₁ := placed hs (follows_of_expression ht label_ok)
    exact isHeld_of_labeledStatement hd h₁ colon body_ok
  | plain value_ok ends =>
    have hv := isHeld_of_expression ht hd hs value_ok
    exact hv

theorem isHeld_of_functionStatement {r : Statement} (hs : s.stream.IsPlaced)
    (hk : s.kind = .keyword .function) (h : functionStatement d s = .ok r u) : r.IsHeld := by
  obtain ⟨s₁, f, ha, hf, rfl⟩ := of_functionStatement h
  have h₁ := placed hs (follows_of_advance (by simp [hk]) ha)
  exact isHeld_toDeclaration (partsHeld_of_function ht hd h₁ hf)

theorem isHeld_of_statement {options : ParseOptions} {r : Statement} (hs : s.stream.IsPlaced)
    (h : StatementRead d options s r u) : r.IsHeld := by
  cases h with
  | declaration begins statement_ok =>
    exact isHeld_of_declarationStatement hd hs begins statement_ok
  | block block_ok =>
    have hb := isHeld_of_block hd hs block_ok
    exact hb
  | empty word statement_ok =>
    obtain ⟨-, rfl⟩ := of_emptyStatement statement_ok
    rfl
  | function word statement_ok => exact isHeld_of_functionStatement ht hd hs word statement_ok
  | returned word statement_ok => exact isHeld_of_returnStatement ht hd hs word statement_ok
  | conditional word statement_ok => exact isHeld_of_ifStatement ht hd hs word statement_ok
  | whileLoop word statement_ok => exact isHeld_of_whileStatement ht hd hs word statement_ok
  | forLoop word statement_ok => exact isHeld_of_forStatement ht hd hs word statement_ok
  | jump word statement_ok =>
    obtain ⟨s₁, label, -, -, -, rfl⟩ := of_jumpStatement statement_ok
    exact isHeld_jumpOf _ _ _
  | thrown word statement_ok => exact isHeld_of_throwStatement ht hd hs word statement_ok
  | guarded word statement_ok => exact isHeld_of_tryStatement ht hd hs word statement_ok
  | expression statement_ok => exact isHeld_of_expressionStatement ht hd hs statement_ok

end Rules

end EcmaTree.BareDefault
