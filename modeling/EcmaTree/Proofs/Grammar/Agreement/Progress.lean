import EcmaTree.Proofs.Grammar.Agreement.Basic

/-!
# Statements and expressions leave tokens behind

An expression begins with a token that it leaves behind, and so does a statement, unless the
statement begins at the end of input, where none is read.
-/

namespace EcmaTree

namespace Goal

/-- What the answer to a goal for a statement or an expression leaves behind. -/
def Shortens (g : Goal) (s u : ParseState) : Prop :=
  match g with
  | .statement | .assignment _ _ _ | .unary _ | .primary _ => u.unread < s.unread
  | _ => True

end Goal

namespace Agreement

open EcmaTree.Parser EcmaTree.Grammar EcmaTree.Reading EcmaTree.Trail ParseState

variable {d : Descent} {s u : ParseState}

theorem shortens_of_identifier {liberal : Bool} {id : Identifier}
    (h : identifier liberal s = .ok id u) : u.unread < s.unread := by
  obtain ⟨name, -, hk, ha, -⟩ := of_identifier h
  refine unread_lt_of_advance ?_ ha
  rintro he
  simp [he, TokenKind.isKeyword, TokenKind.keyword?] at hk

theorem shortens_of_literal {lit : Literal} (h : literal s = .ok lit u) :
    u.unread < s.unread := by
  obtain ⟨value, hv, ha, -⟩ := of_literal h
  refine unread_lt_of_advance ?_ ha
  rintro he
  simp [literalValue?, he] at hv

/-- What follows a token that has been left behind. -/
theorem shortens_of_advance {t : ParseState} (hk : s.kind ≠ .eof) (ha : advance s = .ok () t)
    (h : t.Follows u) : u.unread < s.unread :=
  Nat.lt_of_le_of_lt (unread_le_of_follows h) (unread_lt_of_advance hk ha)

theorem shortens_of_takes {k : TokenKind} {t : ParseState} (hk : k ≠ .eof) (ha : Takes k s t)
    (h : t.Follows u) : u.unread < s.unread :=
  shortens_of_advance (ha.1 ▸ hk) ha.2 h

section Rules

/- Answers follow their token streams and leave behind what they should. -/
variable (ht : ∀ g s r u, d g s = .ok r u → g.IsBounded → g.Traces s u)
  (hd : ∀ g s r u, d g s = .ok r u → g.Shortens s u)

include ht

theorem shortens_of_bindingAtom {p : Pattern} (h : BindingAtom d s p u) :
    u.unread < s.unread := by
  cases h with
  | name name_ok => exact shortens_of_identifier name_ok
  | array opening items =>
    exact shortens_of_takes (by decide) opening (follows_of_goal ht items nofun)
  | object opening items =>
    exact shortens_of_takes (by decide) opening (follows_of_goal ht items trivial)

theorem shortens_of_parenthesis {canBeArrow : Bool} {e : Expression}
    (h : Parenthesis d canBeArrow s e u) : u.unread < s.unread := by
  cases h with
  | arrow allowed params_ok arrow_ok =>
    obtain ⟨s₁, htakes, hp, -⟩ := of_arrowParameters params_ok
    exact shortens_of_takes (by decide) htakes
      ((follows_of_parameters ht hp).trans (follows_of_arrow ht arrow_ok))
  | list no_params list_ok =>
    cases list_ok with
    | arrow allowed opening items_ok closing patterns_ok legal arrow_ok =>
      have h₁ := follows_of_goal ht items_ok trivial
      have h₂ := follows_of_takes closing (by decide)
      have hf := (h₁.trans h₂).trans (follows_of_arrow ht arrow_ok)
      exact shortens_of_takes (by decide) opening hf
    | single opening items_ok closing =>
      have h₁ := follows_of_goal ht items_ok trivial
      exact shortens_of_takes (by decide) opening (h₁.trans (follows_of_takes closing (by decide)))
    | sequence opening items_ok closing =>
      have h₁ := follows_of_goal ht items_ok trivial
      exact shortens_of_takes (by decide) opening (h₁.trans (follows_of_takes closing (by decide)))

theorem shortens_of_nameOrArrow {canBeArrow : Bool} {e : Expression}
    (h : NameOrArrow d canBeArrow s e u) : u.unread < s.unread := by
  cases h with
  | name name_ok => exact shortens_of_identifier name_ok
  | arrow allowed name_ok arrow_ok =>
    have hle := unread_le_of_follows (follows_of_arrow ht arrow_ok)
    exact Nat.lt_of_le_of_lt hle (shortens_of_identifier name_ok)

theorem shortens_of_newExpression {e : Expression} (hk : s.kind = .keyword .new)
    (h : newExpression d s = .ok e u) : u.unread < s.unread := by
  obtain ⟨s₁, atom, s₂, callee, s₃, arguments, ha, hp, hs, hargs, -⟩ := of_newExpression h
  have h₂ := follows_of_goal ht hp trivial
  have h₃ := follows_of_goal ht hs trivial
  refine shortens_of_advance (by simp [hk]) ha ((h₂.trans h₃).trans ?_)
  cases hargs with
  | none => exact .refl
  | given opening arguments_ok =>
    exact (follows_of_takes opening (by decide)).trans (follows_of_callArguments ht arguments_ok)

theorem shortens_of_template {e : Expression} (h : template d s = .ok e u) :
    u.unread < s.unread := by
  obtain ⟨s₁, quasis, values, s₂, htakes, hc, ha, -⟩ := of_template h
  obtain ⟨h₂, hk⟩ := ht _ _ _ _ hc trivial
  exact shortens_of_takes (by decide) htakes (h₂.trans (follows_of_advance (by simp [hk]) ha))

theorem shortens_of_primary {pending : Pending} {r : Expression × Pending}
    (h : Primary d pending s r u) : u.unread < s.unread := by
  cases h with
  | name kind name_ok => exact shortens_of_nameOrArrow ht name_ok
  | this word => exact shortens_of_takes (by decide) word .refl
  | literal literal_ok => exact shortens_of_literal literal_ok
  | parenthesis kind parenthesis_ok => exact shortens_of_parenthesis ht parenthesis_ok
  | array opening elements_ok =>
    exact shortens_of_takes (by decide) opening (follows_of_goal ht elements_ok nofun)
  | object opening members_ok =>
    exact shortens_of_takes (by decide) opening (follows_of_goal ht members_ok trivial)
  | function word function_ok =>
    exact shortens_of_takes (by decide) word (follows_of_function ht (of_function function_ok))
  | template kind template_ok => exact shortens_of_template ht template_ok
  | new kind new_ok => exact shortens_of_newExpression ht kind new_ok

omit ht in
theorem shortens_of_unaryExpression (ht : ∀ g s r u, d g s = .ok r u → g.IsBounded → g.Traces s u)
    {e : Expression} (hk : s.kind.isUnary = true) (h : UnaryExpression d s e u) :
    u.unread < s.unread := by
  have hk : s.kind ≠ .eof := by
    rintro he
    simp [he, TokenKind.isUnary] at hk
  cases h with
  | update word argument_ok => exact shortens_of_advance hk word (follows_of_operand ht argument_ok)
  | unary word argument_ok => exact shortens_of_advance hk word (follows_of_operand ht argument_ok)

include hd

theorem shortens_of_leftHandSide {pending : Pending} {r : Expression × Pending}
    (h : LeftHandSide d pending s r u) : u.unread < s.unread := by
  cases h with
  | atom atom_ok => exact hd _ _ _ _ atom_ok
  | suffixed atom_ok more =>
    have hle := unread_le_of_follows (follows_of_goal ht more trivial)
    exact Nat.lt_of_le_of_lt hle (hd _ _ _ _ atom_ok)

theorem shortens_of_unary {pending : Pending} {r : Expression × Pending}
    (h : Unary d pending s r u) : u.unread < s.unread := by
  cases h with
  | operator kind unary_ok => exact shortens_of_unaryExpression ht kind unary_ok
  | pending left_ok => exact shortens_of_leftHandSide ht hd left_ok
  | trailing left_ok more =>
    have hle := unread_le_of_follows (follows_of_trailingUpdate more)
    exact Nat.lt_of_le_of_lt hle (shortens_of_leftHandSide ht hd left_ok)

theorem shortens_of_binary {noIn : Bool} {pending : Pending} {r : Expression × Pending}
    (h : Binary d noIn pending s r u) : u.unread < s.unread := by
  cases h with
  | operand first => exact hd _ _ _ _ first
  | operators first more =>
    have hle := unread_le_of_follows (follows_of_goal ht more trivial)
    exact Nat.lt_of_le_of_lt hle (hd _ _ _ _ first)

theorem shortens_of_conditional {noIn : Bool} {pending : Pending} {r : Expression × Pending}
    (h : Conditional d noIn pending s r u) : u.unread < s.unread := by
  cases h with
  | plain test_ok => exact shortens_of_binary ht hd test_ok
  | choice test_ok question consequent_ok colon alternate_ok =>
    have h₂ := follows_of_takes question (by decide)
    have h₃ := follows_of_value ht consequent_ok
    have h₄ := follows_of_takes colon (by decide)
    have hle := unread_le_of_follows
      (((h₂.trans h₃).trans h₄).trans (follows_of_value ht alternate_ok))
    exact Nat.lt_of_le_of_lt hle (shortens_of_binary ht hd test_ok)

theorem shortens_of_assignment {noIn owned : Bool} {outer : Pending} {r : Expression × Pending}
    (h : Assignment d noIn owned outer s r u) : u.unread < s.unread := by
  have hmark : s.markArrow.unread = s.unread := by rw [unread, stream_markArrow]
  cases h with
  | yield scope word yield_ok =>
    have hk : s.kind ≠ .eof := by
      rintro he
      simp [ParseState.isWord, he] at word
    cases yield_ok with
    | alone advanced => exact shortens_of_advance hk advanced .refl
    | argument advanced star argument =>
      exact shortens_of_advance hk advanced
        ((follows_of_eats star (by decide)).trans (follows_of_value ht argument))
  | plain left_ok => exact hmark ▸ shortens_of_conditional ht hd (of_conditional left_ok)
  | assign left_ok kind spelling simple target_ok legal word value_ok =>
    rename_i s₁ _ _ _ _
    have hk : s₁.kind ≠ .eof := by
      rintro he
      simp [he, TokenKind.isAssignment] at kind
    have hle := unread_le_of_follows
      ((follows_of_advance hk word).trans (follows_of_value ht value_ok))
    exact Nat.lt_of_le_of_lt hle (hmark ▸ shortens_of_conditional ht hd (of_conditional left_ok))

theorem shortens_of_expression {noIn : Bool} {e : Expression}
    (h : expression d noIn s = .ok e u) : u.unread < s.unread := by
  obtain ⟨after, h⟩ := of_expression h
  cases h with
  | single first => exact hd _ _ _ _ first
  | sequence first comma more =>
    have hle := unread_le_of_follows (follows_of_goal ht more trivial)
    exact Nat.lt_of_le_of_lt hle (hd _ _ _ _ first)

theorem shortens_of_statement {options : ParseOptions} {r : Statement}
    (h : StatementRead d options s r u) : u.unread < s.unread := by
  rcases passes_of_statement ht h with ⟨hk, t, ha, hf⟩ | ⟨e, t, he, hf⟩
  · exact shortens_of_advance hk ha hf
  · have hle := unread_le_of_follows hf
    exact Nat.lt_of_le_of_lt hle (shortens_of_expression ht hd he)

theorem shortens_of_rule {options : ParseOptions} {g : Goal} {r : g.Result}
    (h : rule options d g s = .ok r u) : g.Shortens s u := by
  cases g with
  | statement => exact shortens_of_statement ht hd (of_statement h)
  | assignment => exact shortens_of_assignment ht hd (of_assignment h)
  | unary => exact shortens_of_unary ht hd (of_unary h)
  | primary => exact shortens_of_primary ht (of_primary h)
  | _ => trivial

end Rules

/-- Every answer to a goal for a statement or an expression leaves a token behind. -/
theorem shortens_of_answer {options : ParseOptions} (fuel : Nat) :
    ∀ g s r u, answer options fuel g s = .ok r u → g.Shortens s u := by
  induction fuel with
  | zero =>
    intro g s r u h
    cases h
  | succ fuel ih =>
    intro g s r u h
    exact shortens_of_rule (fun g s r u h hg => traces_of_answer hg h) ih h

end Agreement

end EcmaTree
