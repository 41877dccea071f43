import EcmaTree.Grammar
import EcmaTree.Proofs.Grammar.Asking.Expression

/-!
# What statements ask

An expression statement asks for its expression where it begins itself. All other statements ask
for theirs behind a word or a sign of their own.
-/

namespace EcmaTree

open EcmaTree.Parser EcmaTree.Grammar EcmaTree.Reading ParseState

namespace Asking

variable {begins : TokenStream → Prop} {d d' : Descent} {s t : ParseState} {k : TokenKind}

theorem same_semicolon (hs : s.IsFree) : Same semicolon semicolon s :=
  .of_isFree fun _ _ h => hs.of_ends (semicolon_eq_ok.mp h)

theorem stays_checkUninitialized {inFor : Bool} {kind : VariableKind} {target : Pattern} :
    Stays (checkUninitialized inFor kind target) := by
  have hnamed : Stays
      (do unless target.isName do fail .missingInitializer (← lastEnd (← here))) :=
    .ite stays_pure (stays_here.bind fun _ => stays_lastEnd.bind fun _ => stays_fail)
  refine stays_sees.bind fun _ => stays_isContextual.bind fun _ => .ite ?_ stays_pure
  exact .ite (stays_unexpected.bind fun _ => hnamed) hnamed

theorem stays_seesForEach : Stays seesForEach :=
  fun _ _ _ h => (seesForEach_eq_ok.mp h).2

theorem of_seesForEach (h : seesForEach s = .ok true t) :
    s.kind = .keyword .in ∨ s.isWord "of" = true :=
  (Bool.or_eq_true_iff.mp (seesForEach_eq_ok.mp h).1.symm).imp_left eq_of_beq

theorem stays_declarationKind? : Stays declarationKind? :=
  fun _ _ _ h => (of_declarationKind? h).1

theorem kind_ne_dot_of_begins {kind : VariableKind} (h : BeginsDeclaration kind s) :
    s.kind ≠ .dot := by
  cases kind with
  | var => exact fun hdot => TokenKind.noConfusion (h.symm.trans hdot)
  | const => exact fun hdot => TokenKind.noConfusion (h.symm.trans hdot)
  | «let» => exact fun hdot => TokenKind.noConfusion ((kind_of_isWord h.1).symm.trans hdot)

theorem same_jumpStatement {jump : Jump} (hs : s.kind ≠ .dot) :
    Same (jumpStatement jump) (jumpStatement jump) s := by
  refine .of_isFree fun r t h => ?_
  obtain ⟨s₁, label, word, hlabel, -, -⟩ := of_jumpStatement h
  have h₁ := isFree_of_advance word hs
  cases hlabel with
  | none ends => exact h₁.of_ends ends
  | some name_ok ends => exact (same_identifier.2 _ _ name_ok).of_ends ends

theorem same_emptyStatement (hk : s.kind = .semi) : Same emptyStatement emptyStatement s :=
  .of_isFree fun _ _ h => isFree_of_advance (of_emptyStatement h).1 (by simp [hk])

section Rules

/- Both ways of answering agree on the goals that may be asked. -/
variable (hd : ∀ g t, g.Suits begins t → Same (d g) (d' g) t)

include hd

theorem same_declarator {inFor : Bool} {kind : VariableKind} (hs : s.IsFree) :
    Same (declarator d inFor kind) (declarator d' inFor kind) s := by
  refine .look stays_here hs fun _ _ => (same_bindingAtom hd hs).bind fun _ t _ ht => ?_
  refine .look stays_checkTarget ht fun _ _ => .eaten (by decide) (fun u h hu => ?_) ?_
  · refine (same_value hd hu (hosts_of_takes ht h rfl)).ends fun _ => ?_
    exact stays_finish.bind fun _ => stays_pure
  · refine .of_stays ht (stays_checkUninitialized.bind fun _ => ?_)
    exact stays_finish.bind fun _ => stays_pure

theorem same_declarators {inFor : Bool} {kind : VariableKind} (hs : s.IsFree) :
    Same (declarators d inFor kind) (declarators d' inFor kind) s := by
  refine (same_declarator hd hs).bind fun _ t _ ht => ?_
  refine .eaten (by decide) (fun u _ hu => ?_) (.pure ht)
  exact (same_ask hd hu rfl id).ends fun _ => stays_pure

theorem same_declarationStatement {kind : VariableKind} (hs : s.IsFree)
    (hk : BeginsDeclaration kind s) :
    Same (declarationStatement d kind) (declarationStatement d' kind) s := by
  refine .look stays_here hs fun _ _ => ?_
  refine (Same.advance (kind_ne_dot_of_begins hk)).bind fun _ t _ ht => ?_
  refine (same_ask hd ht rfl id).bind fun _ u _ hu => (same_semicolon hu).ends fun _ => ?_
  exact stays_finish.bind fun _ => stays_pure

theorem same_returnStatement {options : ParseOptions} (hs : s.IsFree)
    (hk : s.kind = .keyword .return) :
    Same (returnStatement d options) (returnStatement d' options) s := by
  refine .look stays_here hs fun _ _ => .look stays_get hs fun _ _ => ?_
  refine .ite (fun _ => .of_stays hs stays_fail) fun _ => ?_
  refine (Same.advance (by simp [hk])).bind fun _ t ha ht => ?_
  have hhosts : t.Hosts begins := hosts_of_takes hs ⟨hk, ha⟩ rfl
  have hends : Same returnStatement.endsEmpty returnStatement.endsEmpty t :=
    .eaten (by decide) (fun _ _ hu => .pure hu) (.of_stays ht stays_canInsertSemicolon)
  refine hends.bind fun b u h hu => .ite (fun _ => ?_) fun hb => ?_
  · exact .of_stays hu (stays_finish.bind fun _ => stays_pure)
  have hstays : u = t := by
    obtain ⟨b', v, heats, hlook⟩ := bind_eq_ok.mp h
    rcases eat_eq_ok.mp heats with ⟨rfl, -⟩ | ⟨rfl, -, rfl⟩
    · exact absurd (pure_eq_ok.mp hlook).1 hb
    · exact (canInsertSemicolon_eq_ok.mp hlook).2
  refine (same_expression hd hu (hstays ▸ hhosts)).bind fun _ v _ hv => ?_
  exact (same_semicolon hv).ends fun _ => stays_finish.bind fun _ => stays_pure

theorem same_headExpression (hs : s.IsFree) : Same (headExpression d) (headExpression d') s := by
  refine .expected (by decide) fun t h ht => ?_
  refine (same_expression hd ht (hosts_of_takes hs h rfl)).bind fun _ _ _ _ => ?_
  exact (Same.expect (by decide)).ends fun _ => stays_pure

theorem same_ifStatement (hs : s.IsFree) (hk : s.kind = .keyword .if) :
    Same (ifStatement d) (ifStatement d') s := by
  simp only [ifStatement, ite_bind]
  refine .look stays_here hs fun _ _ => (Same.advance (by simp [hk])).bind fun _ t _ ht => ?_
  refine (same_headExpression hd ht).bind fun _ u _ hu => ?_
  refine (same_ask hd hu rfl id).bind fun _ v _ hv => ?_
  refine (Same.eat (by decide) hv).bind fun _ w _ hw => ?_
  have halternate : Same (d .statement) (d' .statement) w := same_ask hd hw rfl id
  refine (Same.ite (fun _ => halternate.map) fun _ => .pure hw).ends fun _ => ?_
  exact stays_finish.bind fun _ => stays_pure

theorem same_loopBody (hs : s.IsFree) : Same (loopBody d) (loopBody d') s :=
  .withLabel (same_ask hd (hs.of_stream_eq (stream_pushLabel s _)) rfl id)

theorem same_whileStatement (hs : s.IsFree) (hk : s.kind = .keyword .while) :
    Same (whileStatement d) (whileStatement d') s := by
  refine .look stays_here hs fun _ _ => (Same.advance (by simp [hk])).bind fun _ t _ ht => ?_
  refine (same_headExpression hd ht).bind fun _ u _ hu => (same_loopBody hd hu).ends fun _ => ?_
  exact stays_finish.bind fun _ => stays_pure

theorem same_optionalExpression {stop : TokenKind} (hs : s.IsFree) (hh : s.Hosts begins) :
    Same (optionalExpression d stop) (optionalExpression d' stop) s := by
  refine .look stays_sees hs fun _ _ => .ite (fun _ => .pure hs) fun _ => ?_
  exact (same_expression hd hs hh).ends fun _ => stays_pure

theorem same_forParts {start : Place} {init : Node (.option .forInit)} (hs : s.IsFree) :
    Same (forParts d start init) (forParts d' start init) s := by
  refine .expected (by decide) fun t h ht => ?_
  refine (same_optionalExpression hd ht (hosts_of_takes hs h rfl)).bind fun _ u _ hu => ?_
  refine .expected (by decide) fun v h hv => ?_
  refine (same_optionalExpression hd hv (hosts_of_takes hu h rfl)).bind fun _ _ _ _ => ?_
  refine .expected (by decide) fun _ _ hw => (same_loopBody hd hw).ends fun _ => ?_
  exact stays_finish.bind fun _ => stays_pure

/-- Where the left part of a head ends, the right part is asked for behind a word. -/
theorem same_forEach {start : Place} {left : Node .forTarget} (hs : s.IsFree)
    (hk : s.kind = .keyword .in ∨ s.isWord "of" = true) :
    Same (forEach d start left) (forEach d' start left) s := by
  simp only [forEach, ite_bind]
  have hdot : s.kind ≠ .dot := by
    rcases hk with hk | hk
    · simp [hk]
    · simp [kind_of_isWord hk]
  refine .look stays_sees hs fun _ _ => (Same.advance hdot).bind fun _ t ha ht => ?_
  have hhosts : t.Hosts begins := by
    rcases hk with hk | hk
    · exact hosts_of_takes hs ⟨hk, ha⟩ rfl
    · exact .inl (isLed_of_word hk (by decide) ha)
  refine (Same.ite (fun _ => same_expression hd ht hhosts)
    fun _ => same_value hd ht hhosts).bind fun _ u _ hu => ?_
  refine .expected (by decide) fun _ _ hv => (same_loopBody hd hv).ends fun _ => ?_
  exact stays_finish.bind fun _ => stays_pure

theorem same_forDeclaration {start : Place} {kind : VariableKind} (hs : s.IsFree)
    (hk : BeginsDeclaration kind s) :
    Same (forDeclaration d start kind) (forDeclaration d' start kind) s := by
  refine .look stays_here hs fun _ _ => ?_
  refine (Same.advance (kind_ne_dot_of_begins hk)).bind fun _ t _ ht => ?_
  refine (same_ask hd ht rfl id).bind fun _ u _ hu => .look stays_finish hu fun _ _ => ?_
  refine .look stays_seesForEach hu fun b hb => .ite (fun h => ?_) fun _ => ?_
  · obtain rfl : b = true := (Bool.and_eq_true_iff.mp h).2
    exact same_forEach hd hu (of_seesForEach hb)
  · exact same_forParts hd hu

theorem same_forExpression {start : Place} (hs : s.IsFree) (hh : s.Hosts begins) :
    Same (forExpression d start) (forExpression d' start) s := by
  refine (same_expressionWith hd hs hh).bind fun _ t _ ht => ?_
  refine .look stays_seesForEach ht fun b hb => .ite (fun h => ?_) fun _ => ?_
  · obtain rfl : b = true := h
    refine .look stays_lift ht fun _ _ => .look stays_checkTarget ht fun _ _ => ?_
    exact same_forEach hd ht (of_seesForEach hb)
  · exact .look stays_refuse ht fun _ _ => same_forParts hd ht

theorem same_forStatement (hs : s.IsFree) (hk : s.kind = .keyword .for) :
    Same (forStatement d) (forStatement d') s := by
  refine .look stays_here hs fun _ _ => (Same.advance (by simp [hk])).bind fun _ t _ ht => ?_
  refine .expected (by decide) fun u h hu => .look stays_sees hu fun _ _ => ?_
  refine .ite (fun _ => same_forParts hd hu) fun _ => ?_
  refine .look stays_declarationKind? hu fun kind hkind => ?_
  cases kind with
  | some kind => exact same_forDeclaration hd hu ((of_declarationKind? hkind).2 kind rfl)
  | none => exact same_forExpression hd hu (hosts_of_takes ht h rfl)

theorem same_throwStatement (hs : s.IsFree) (hk : s.kind = .keyword .throw) :
    Same (throwStatement d) (throwStatement d') s := by
  refine .look stays_here hs fun _ _ => (Same.advance (by simp [hk])).bind fun _ t ha ht => ?_
  have hhosts : t.Hosts begins := hosts_of_takes hs ⟨hk, ha⟩ rfl
  refine .look stays_afterLineBreak ht fun _ _ => .ite (fun _ => ?_) fun _ => ?_
  · exact .of_stays ht (stays_lastEnd.bind fun _ => stays_fail)
  · refine (same_expression hd ht hhosts).bind fun _ u _ hu => (same_semicolon hu).ends fun _ => ?_
    exact stays_finish.bind fun _ => stays_pure

theorem same_catchClause (hs : s.IsFree) (hk : s.kind = .keyword .catch) :
    Same (catchClause d) (catchClause d') s := by
  refine .look stays_here hs fun _ _ => (Same.advance (by simp [hk])).bind fun _ _ _ _ => ?_
  refine .expected (by decide) fun _ _ hu => (same_bindingAtom hd hu).bind fun _ _ _ hv => ?_
  refine .look stays_checkTargets hv fun _ _ => .expected (by decide) fun _ _ hw => ?_
  exact (same_block hd hw).ends fun _ => stays_finish.bind fun _ => stays_pure

theorem same_tryStatement (hs : s.IsFree) (hk : s.kind = .keyword .try) :
    Same (tryStatement d) (tryStatement d') s := by
  simp only [tryStatement, ite_bind]
  refine .look stays_here hs fun _ _ => (Same.advance (by simp [hk])).bind fun _ t _ ht => ?_
  refine (same_block hd ht).bind fun _ u _ hu => .look stays_sees hu fun b hb => ?_
  obtain ⟨rfl, -⟩ := sees_eq_ok.mp hb
  refine (Same.ite (fun hcatch => ?_) fun _ => .pure hu).bind fun _ v _ hv => ?_
  · exact (same_catchClause hd hu (eq_of_beq hcatch)).map
  refine (Same.eat (by decide) hv).bind fun _ w _ hw => ?_
  refine (Same.ite (fun _ => (same_block hd hw).map) fun _ => .pure hw).ends fun _ => ?_
  exact .ite stays_fail (stays_finish.bind fun _ => stays_pure)

theorem same_labeledStatement {start : Place} {label : Identifier} (hs : s.IsFree)
    (hk : s.kind = .colon) :
    Same (labeledStatement d start label) (labeledStatement d' start label) s := by
  refine .look stays_get hs fun _ _ => .ite (fun _ => .of_stays hs stays_fail) fun _ => ?_
  refine (Same.advance (by simp [hk])).bind fun _ t _ ht => .look stays_kind ht fun _ _ => ?_
  refine (Same.withLabel (same_ask hd ?_ rfl id)).ends fun _ => ?_
  · exact ht.of_stream_eq (stream_pushLabel t _)
  · exact stays_finish.bind fun _ => stays_pure

theorem same_expressionStatement (hs : s.IsFree) (hh : s.Hosts begins) :
    Same (expressionStatement d) (expressionStatement d') s := by
  refine .look stays_here hs fun _ _ => .look stays_sees hs fun b _ => ?_
  refine (same_expression hd hs hh).bind fun value t _ ht => .look stays_sees ht fun colon hc => ?_
  obtain ⟨rfl, -⟩ := sees_eq_ok.mp hc
  split
  · next hcolon _ =>
    exact same_labeledStatement hd ht (eq_of_beq (Bool.and_eq_true_iff.mp hcolon).2)
  · exact (same_semicolon ht).ends fun _ => stays_finish.bind fun _ => stays_pure

theorem same_functionStatement (hs : s.IsFree) (hk : s.kind = .keyword .function) :
    Same (functionStatement d) (functionStatement d') s := by
  refine .look stays_here hs fun _ _ => (Same.advance (by simp [hk])).bind fun _ t _ ht => ?_
  exact (same_function hd ht).ends fun _ => stays_pure

theorem same_statement {options : ParseOptions} (hs : s.IsFree) (hh : s.Hosts begins) :
    Same (statement d options) (statement d' options) s := by
  refine .look stays_declarationKind? hs fun kind hkind => ?_
  cases kind with
  | some kind => exact same_declarationStatement hd hs ((of_declarationKind? hkind).2 kind rfl)
  | none =>
    refine .kind hs ?_
    split
    · exact (same_block hd hs).ends fun _ => stays_pure
    · next hk => exact same_emptyStatement hk
    · next hk => exact same_functionStatement hd hs hk
    · next hk => exact same_returnStatement hd hs hk
    · next hk => exact same_ifStatement hd hs hk
    · next hk => exact same_whileStatement hd hs hk
    · next hk => exact same_forStatement hd hs hk
    · next hk => exact same_jumpStatement (by simp [hk])
    · next hk => exact same_jumpStatement (by simp [hk])
    · next hk => exact same_throwStatement hd hs hk
    · next hk => exact same_tryStatement hd hs hk
    · exact same_expressionStatement hd hs hh

theorem same_statements {inPrologue : Bool} {stop : TokenKind} (hstop : (stop == .dot) = false)
    (hs : s.IsFree) :
    Same (statements d inPrologue stop) (statements d' inPrologue stop) s := by
  simp only [statements]
  refine .look stays_sees hs fun b hb => .ite (fun hk => ?_) fun _ => ?_
  · obtain ⟨rfl, -⟩ := sees_eq_ok.mp hb
    have hdot : s.kind ≠ .dot := eq_of_beq hk ▸ ne_of_beq_false hstop
    exact .ite (fun _ => .pure hs) fun _ => (Same.advance hdot).ends fun _ => stays_pure
  refine .look stays_sees hs fun _ _ => .ite (fun _ => .unexpected) fun _ => ?_
  refine (same_ask hd hs rfl id).bind fun statement t _ ht => ?_
  split
  · refine (Same.of_isFree fun _ u h => ht.of_stream_eq ?_).bind fun _ u _ hu => ?_
    · rw [obeyDirective_eq_ok.mp h]
      exact stream_obeyed _ _
    · exact (same_ask (g := .statements ..) hd hu hstop id).ends fun _ => stays_pure
  · exact (same_ask (g := .statements ..) hd ht hstop id).ends fun _ => stays_pure

/-- A rule asks only what may be asked, so it does the same with all ways of answering that agree
there. -/
theorem same_rule {options : ParseOptions} {g : Goal}
    (hchunks : ∀ s r u, d .chunks s = .ok r u → u.kind = .backQuote) (hg : g.Suits begins s)
    (hstatement : g = .statement → s.Hosts begins) :
    Same (rule options d g) (rule options d' g) s := by
  obtain ⟨hs, hstop, hh⟩ := hg
  cases g with
  | statement => exact same_statement hd hs (hstatement rfl)
  | statements => exact same_statements hd hstop hs
  | declarators => exact same_declarators hd hs
  | assignment => exact same_assignment hd hs (hh trivial)
  | commaOperands => exact same_commaOperands hd hs
  | unary => exact same_unary hd hs (hh trivial)
  | operators => exact same_operators hd hs
  | primary => exact same_primary hd hchunks hs
  | suffixes => exact same_suffixes hd hs
  | elements => exact same_elements hd hstop hs hh
  | parenthesized => exact same_parenthesized hd hs hh
  | members => exact same_members hd hs
  | chunks => exact same_chunks hd hs
  | targets => exact same_targets hd hstop hs
  | patternMembers => exact same_patternMembers hd hs

end Rules

end Asking

end EcmaTree
