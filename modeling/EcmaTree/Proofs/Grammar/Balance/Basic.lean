import EcmaTree.Proofs.Grammar.Reading.Statement
import EcmaTree.Proofs.Target.FunctionKey
import EcmaTree.Proofs.Token.Balance

/-!
# Rules and the stack of contexts

A rule keeps the contexts, or it reads up to the end of a list and closes what has been opened
before the list, or it reads the rest of a function. Each of these is a relation between the
states before and behind the rule, for all contexts in which a rule may be asked. The contexts
are those before the current token, so a token counts for the rule that leaves it behind.
-/

namespace EcmaTree

open EcmaTree.Parser EcmaTree.Grammar EcmaTree.Reading Node ContextStack

/-- The contexts before the current token are the same behind the rule. -/
def ParseState.Keeps (s u : ParseState) : Prop :=
  ∀ σ, IsGrounded σ → s.stream.Lies σ → u.stream.Lies σ

/-- The rule ends with a token of the kind `stop`, which may close what is around the rule. -/
def ParseState.Closes (stop : TokenKind) (s u : ParseState) : Prop :=
  ∀ σ, IsGrounded σ → s.stream.Lies σ → u.stream.Lies (closedBy stop σ)

/-- The same, where it matters that the last token is of the kind `stop`. -/
def ParseState.ClosesBehind (stop : TokenKind) (s u : ParseState) : Prop :=
  ∀ σ, IsGrounded σ → s.stream.Lies σ → u.stream.LiesBehind stop (closedBy stop σ)

/-- The rule reads a word that may begin a function. -/
def ParseState.Begins (s u : ParseState) : Prop :=
  ∀ σ, IsGrounded σ → s.stream.Lies σ → ∃ φ, IsBegun σ φ ∧ u.stream.Lies φ

/-- The rule reads the rest of a function behind that word. -/
def ParseState.Finishes (s u : ParseState) : Prop :=
  ∀ σ φ, IsGrounded σ → IsBegun σ φ → s.stream.Lies φ → u.stream.Lies σ

/-- What holds of the answer to a goal if no property in it has the key `function`. -/
def Goal.Balances (g : Goal) (s : ParseState) (r : g.Result) (u : ParseState) : Prop :=
  match g, r with
  | .statement, r => r.IsUnkeyed → s.Keeps u
  | .statements _ stop, r => stop.opensContext = false → (∀ x ∈ r, x.IsUnkeyed) →
    s.Closes stop u
  | .declarators _ _, r => (∀ x ∈ r, x.IsUnkeyed) → s.Keeps u
  | .assignment _ _ _, r => r.1.IsUnkeyed → s.Keeps u
  | .commaOperands _ _ _, r => (∀ x ∈ r.1, x.IsUnkeyed) → s.Keeps u
  | .unary _, r => r.1.IsUnkeyed → s.Keeps u
  | .operators left _ _ _, r => r.IsUnkeyed → left.IsUnkeyed ∧ s.Keeps u
  | .primary _, r => r.1.IsUnkeyed → s.Keeps u
  | .suffixes base _ _, r => r.IsUnkeyed → base.IsUnkeyed ∧ s.Keeps u
  | .elements stop _ _ _ _, r => stop.opensContext = false →
    (∀ x, some x ∈ r.1 → x.IsUnkeyed) → s.Closes stop u
  | .parenthesized _ _, r => (∀ e ∈ expressionsOf r.1, e.IsUnkeyed) → s.Keeps u
  | .members _ _, r => (∀ x ∈ r.1, x.IsUnkeyed) → s.Closes .braceR u
  | .chunks, r => (∀ x ∈ r.2, x.IsUnkeyed) → u.kind = .backQuote ∧
    ∀ σ, s.stream.Lies (.quoteTemplate :: σ) → u.stream.Lies (.quoteTemplate :: σ)
  | .targets stop _ _ _, r => stop.opensContext = false →
    (∀ x, some x ∈ r → x.IsUnkeyed) → s.ClosesBehind stop u
  | .patternMembers _, r => (∀ x ∈ r, x.IsUnkeyed) → s.Closes .braceR u

namespace ParseState

variable {s t u : ParseState} {stop : TokenKind}

theorem Keeps.refl (s : ParseState) : s.Keeps s :=
  fun _ _ hs => hs

theorem Keeps.trans (h : s.Keeps t) (h' : t.Keeps u) : s.Keeps u :=
  fun σ hσ hs => h' σ hσ (h σ hσ hs)

theorem Keeps.begins (h : s.Keeps u) : s.Begins u :=
  fun σ hσ hs => ⟨σ, .inl rfl, h σ hσ hs⟩

theorem Keeps.closes (h : s.Keeps t) (h' : t.Closes stop u) : s.Closes stop u :=
  fun σ hσ hs => h' σ hσ (h σ hσ hs)

theorem Keeps.closesBehind (h : s.Keeps t) (h' : t.ClosesBehind stop u) : s.ClosesBehind stop u :=
  fun σ hσ hs => h' σ hσ (h σ hσ hs)

theorem ClosesBehind.closes (h : s.ClosesBehind stop u) : s.Closes stop u :=
  fun σ hσ hs => (h σ hσ hs).lies

/-- A list in brackets is in the contexts around the brackets. -/
theorem Closes.keeps (h : s.Closes stop u) (hstop : stop.closesContext = false) : s.Keeps u := by
  intro σ hσ hs
  have hu := h σ hσ hs
  rwa [closedBy, hstop] at hu

theorem Begins.trans (h : s.Begins t) (h' : t.Finishes u) : s.Keeps u := by
  intro σ hσ hs
  obtain ⟨φ, hφ, ht⟩ := h σ hσ hs
  exact h' σ φ hσ hφ ht

end ParseState

namespace Balance

variable {s t u : ParseState} {k stop : TokenKind} {σ : List Context}

section Tokens

/-- The contexts behind a token are what its step has made of those before it. -/
theorem exists_step {previous : TokenKind} (h : Takes k s u)
    (hs : s.stream.LiesBehind previous σ) :
    ∃ (c : ContextStack) (afterLineBreak : Bool), c.stack = σ ∧
      u.stream.LiesBehind k (c.step previous k afterLineBreak).stack := by
  obtain ⟨rfl, ha⟩ := h
  obtain ⟨stream, hstream, rfl⟩ := advance_eq_ok.mp ha
  obtain ⟨-, allowed, afterLineBreak, heq⟩ := hs
  have hu := TokenStream.liesBehind_of_advance hstream
  rw [heq] at hu
  exact ⟨⟨σ, allowed⟩, afterLineBreak, rfl, hu⟩

theorem liesBehind_of_takes (h : Takes k s u) (hk : k.opensContext = false)
    (hs : s.stream.Lies σ) : u.stream.LiesBehind k (closedBy k σ) := by
  obtain ⟨previous, hs⟩ := hs
  obtain ⟨c, afterLineBreak, rfl, hu⟩ := exists_step h hs
  rwa [stack_step _ _ _ hk] at hu

/-- A token that neither opens nor closes a context. -/
theorem lies_of_takes (h : Takes k s u) (hk : k.movesStack = false) (hs : s.stream.Lies σ) :
    u.stream.Lies σ := by
  obtain ⟨hopens, hcloses⟩ := Bool.or_eq_false_iff.mp hk
  have hu := liesBehind_of_takes h hopens hs
  rw [closedBy, hcloses] at hu
  exact hu.lies

theorem lies_of_parenL (h : Takes .parenL s u) (hs : s.stream.Lies σ) :
    ∃ context, IsGrounded (context :: σ) ∧ context ≠ .braceStatement ∧
      u.stream.Lies (context :: σ) := by
  obtain ⟨previous, hs⟩ := hs
  obtain ⟨c, afterLineBreak, rfl, hu⟩ := exists_step h hs
  obtain ⟨context, hgrounded, hparen, hstack⟩ := stack_step_parenL c previous afterLineBreak
  have hne : context ≠ .braceStatement := by
    rcases hparen with rfl | rfl <;> decide
  exact ⟨context, hgrounded, hne, _, hstack ▸ hu⟩

theorem lies_of_braceL (h : Takes .braceL s u) (hs : s.stream.Lies σ) :
    ∃ context, IsGrounded (context :: σ) ∧ u.stream.Lies (context :: σ) := by
  obtain ⟨previous, hs⟩ := hs
  obtain ⟨c, afterLineBreak, rfl, hu⟩ := exists_step h hs
  obtain ⟨context, hgrounded, -, hstack⟩ := stack_step_braceL c previous afterLineBreak
  exact ⟨context, hgrounded, _, hstack ▸ hu⟩

/-- A brace behind the parameters of a function opens a block. -/
theorem lies_of_body (h : Takes .braceL s u) (hs : s.stream.LiesBehind .parenR σ) :
    u.stream.Lies (.braceStatement :: σ) := by
  obtain ⟨c, afterLineBreak, rfl, hu⟩ := exists_step h hs
  exact hu.lies

theorem lies_of_dollarBraceL (h : Takes .dollarBraceL s u) (hs : s.stream.Lies σ) :
    u.stream.Lies (.braceTemplate :: σ) := by
  obtain ⟨previous, hs⟩ := hs
  obtain ⟨c, afterLineBreak, rfl, hu⟩ := exists_step h hs
  exact hu.lies

theorem lies_of_backQuote (h : Takes .backQuote s u) (hσ : IsGrounded σ) (hs : s.stream.Lies σ) :
    u.stream.Lies (.quoteTemplate :: σ) := by
  obtain ⟨previous, hs⟩ := hs
  obtain ⟨c, afterLineBreak, rfl, hu⟩ := exists_step h hs
  rw [stack_step_backQuote _ _ _ hσ] at hu
  exact hu.lies

theorem lies_of_endQuote (h : Takes .backQuote s u) (hs : s.stream.Lies (.quoteTemplate :: σ)) :
    u.stream.Lies σ := by
  obtain ⟨previous, hs⟩ := hs
  obtain ⟨c, afterLineBreak, hc, hu⟩ := exists_step h hs
  rw [stack_step_endQuote _ _ _ hc] at hu
  exact hu.lies

theorem begins_of_function (h : Takes (.keyword .function) s u) : s.Begins u := by
  rintro σ - ⟨previous, hs⟩
  obtain ⟨c, afterLineBreak, rfl, hu⟩ := exists_step h hs
  exact ⟨_, stack_step_function c previous afterLineBreak, hu.lies⟩

end Tokens

section Keeps

/-- What a parse knows besides the tokens does not matter. -/
theorem keeps_of_stream_eq (h : u.stream = s.stream) : s.Keeps u :=
  fun _ _ hs => h ▸ hs

theorem keeps_of_takes (h : Takes k s u) (hk : k.movesStack = false) : s.Keeps u :=
  fun _ _ hs => lies_of_takes h hk hs

theorem lies_of_eats {eaten : Bool} (h : Eats k eaten s u) (hk : k.movesStack = false)
    (hs : s.stream.Lies σ) : u.stream.Lies σ := by
  rcases h with ⟨-, h⟩ | ⟨-, -, rfl⟩
  · exact lies_of_takes h hk hs
  · exact hs

theorem keeps_of_eats {eaten : Bool} (h : Eats k eaten s u) (hk : k.movesStack = false) :
    s.Keeps u :=
  fun _ _ hs => lies_of_eats h hk hs

theorem keeps_of_ends (h : Ends s u) : s.Keeps u := by
  rcases h with h | ⟨-, -, rfl⟩
  · exact keeps_of_takes h rfl
  · exact .refl _

theorem keeps_of_separator {isFirst : Bool} (h : Separator isFirst s u) : s.Keeps u := by
  cases h with
  | first => exact .refl _
  | comma comma => exact keeps_of_takes comma rfl

theorem keeps_of_literal {lit : Literal} (h : literal s = .ok lit u) : s.Keeps u := by
  obtain ⟨value, hvalue, word, -⟩ := of_literal h
  refine keeps_of_takes ⟨rfl, word⟩ ?_
  unfold literalValue? at hvalue
  unfold ParseState.kind
  split at hvalue <;> simp_all [TokenKind.movesStack, TokenKind.opensContext,
    TokenKind.closesContext]

theorem lies_of_identifier {id : Identifier} (h : identifier false s = .ok id u)
    (hs : s.stream.Lies σ) : u.stream.Lies σ := by
  obtain ⟨name, -, kind | ⟨⟨⟩, -⟩, word, -⟩ := of_identifier h
  exact lies_of_takes ⟨kind, word⟩ rfl hs

theorem keeps_of_identifier {id : Identifier} (h : identifier false s = .ok id u) : s.Keeps u :=
  fun _ _ hs => lies_of_identifier h hs

/-- A name behind a dot may be any word. -/
theorem keeps_of_dot {id : Identifier} (dot : Takes .dot s t) (h : identifier true t = .ok id u) :
    s.Keeps u := by
  intro σ hσ hs
  obtain ⟨name, -, hk, word, -⟩ := of_identifier h
  obtain ⟨c, afterLineBreak, rfl, hu⟩ := exists_step ⟨rfl, word⟩ (liesBehind_of_takes dot rfl hs)
  rw [stack_step_dot _ _ (by simpa using hk)] at hu
  exact hu.lies

theorem movesStack_keyword {word : Keyword} (h : word ≠ .function) :
    (TokenKind.keyword word).movesStack = false := by
  cases word <;> first | rfl | exact absurd rfl h

/-- Of all words only `function` does something to the contexts. -/
theorem begins_of_name {id : Identifier} (h : identifier true s = .ok id u) :
    s.Begins u ∧ (id.name ≠ "function" → s.Keeps u) := by
  obtain ⟨name, value, hk, word, rfl⟩ := of_identifier h
  rcases hk with kind | ⟨-, hk⟩
  · have hkeeps := keeps_of_takes ⟨kind, word⟩ rfl
    exact ⟨hkeeps.begins, fun _ => hkeeps⟩
  obtain ⟨k, hk⟩ := Option.isSome_iff_exists.mp hk
  have kind := TokenKind.eq_of_keyword? hk
  by_cases hfunction : k = .function
  · subst hfunction
    refine ⟨begins_of_function ⟨kind, word⟩, fun hne σ hσ hs => absurd ?_ hne⟩
    obtain ⟨previous, hlies⟩ := hs
    exact (Keyword.word_of_ofWord? (hlies.spelled.keyword _ kind name value)).symm
  · have hkeeps := keeps_of_takes ⟨kind, word⟩ (movesStack_keyword hfunction)
    exact ⟨hkeeps.begins, fun _ => hkeeps⟩

theorem keeps_of_restOfBinding {r : Span × Pattern} (dots : s.kind = .ellipsis)
    (h : restOfBinding s = .ok r u) : s.Keeps u := by
  obtain ⟨s₁, id, word, name_ok, -⟩ := of_restOfBinding h
  exact (keeps_of_takes ⟨dots, word⟩ rfl).trans (keeps_of_identifier name_ok)

end Keeps

section Lists

/-- The token that ends a list. -/
theorem closesBehind_of_takes (h : Takes stop s u) (hstop : stop.opensContext = false) :
    s.ClosesBehind stop u :=
  fun _ _ hs => liesBehind_of_takes h hstop hs

theorem closes_of_takes (h : Takes stop s u) (hstop : stop.opensContext = false) :
    s.Closes stop u :=
  (closesBehind_of_takes h hstop).closes

theorem keeps_of_parens (opening : Takes .parenL s t) (h : t.Closes .parenR u) : s.Keeps u := by
  intro σ hσ hs
  obtain ⟨context, hgrounded, -, ht⟩ := lies_of_parenL opening hs
  have hu : u.stream.Lies (closed (context :: σ)) := h _ hgrounded ht
  rwa [closed_cons hσ] at hu

/-- The parameters of a function, around which there may be the context of the function. -/
theorem liesBehind_of_parens (opening : Takes .parenL s t) (h : t.ClosesBehind .parenR u)
    (hσ : σ ≠ []) (hs : s.stream.Lies σ) : u.stream.LiesBehind .parenR σ := by
  obtain ⟨context, hgrounded, hne, ht⟩ := lies_of_parenL opening hs
  have hu : u.stream.LiesBehind .parenR (closed (context :: σ)) := h _ hgrounded ht
  rwa [closed_cons_of_ne hσ hne] at hu

theorem keeps_of_braces (opening : Takes .braceL s t) (h : t.Closes .braceR u) : s.Keeps u := by
  intro σ hσ hs
  obtain ⟨context, hgrounded, ht⟩ := lies_of_braceL opening hs
  have hu : u.stream.Lies (closed (context :: σ)) := h _ hgrounded ht
  rwa [closed_cons hσ] at hu

end Lists

end Balance

end EcmaTree
