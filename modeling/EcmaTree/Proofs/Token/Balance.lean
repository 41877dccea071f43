import EcmaTree.Proofs.Token.Trail

/-!
# What a token does to the stack of contexts

The step from token to token knows no grammar. An opening token pushes one context, a closing
token pops one, or two where the body of a function expression ends. The word `function` pushes
one that nothing but such a body pops. All other tokens leave the stack as it is. So where the
current token lies says how the stack was before that token.
-/

namespace EcmaTree

theorem Keyword.word_of_ofWord? {name : String} {k : Keyword} (h : ofWord? name = some k) :
    k.word = name :=
  eq_of_beq (List.find?_some (p := fun k : Keyword => k.word == name) h)

namespace TokenKind

theorem eq_of_keyword? {k : TokenKind} {word : Keyword} (h : k.keyword? = some word) :
    k = .keyword word := by
  cases k with
  | keyword => exact congrArg TokenKind.keyword (Option.some.inj h)
  | _ => cases h

def opensContext : TokenKind → Bool
  | .braceL | .parenL | .dollarBraceL | .backQuote | .keyword .function => true
  | _ => false

def closesContext : TokenKind → Bool
  | .braceR | .parenR => true
  | _ => false

def movesStack (k : TokenKind) : Bool :=
  k.opensContext || k.closesContext

end TokenKind

namespace ContextStack

/-- The contexts that are left by a closing parenthesis or brace. The lowest one is never left. -/
def closed : List Context → List Context
  | [] => []
  | [context] => [context]
  | .braceStatement :: .functionExpression :: below => below
  | _ :: below => below

/-- The contexts behind a token that opens none. -/
def closedBy (kind : TokenKind) (contexts : List Context) : List Context :=
  match kind.closesContext with
  | true => closed contexts
  | false => contexts

/-- The innermost context is one in which braces and templates begin. -/
def IsGrounded : List Context → Prop
  | [] => False
  | context :: _ => context ≠ .functionExpression ∧ context ≠ .quoteTemplate

/-- The word `function` has been read, which may have pushed its context. -/
def IsBegun (contexts begun : List Context) : Prop :=
  begun = contexts ∨ begun = .functionExpression :: contexts

theorem IsGrounded.ne_nil {contexts : List Context} (h : IsGrounded contexts) : contexts ≠ [] := by
  rintro rfl
  exact h

theorem IsBegun.ne_nil {contexts begun : List Context} (h : IsBegun contexts begun)
    (hne : contexts ≠ []) : begun ≠ [] := by
  rcases h with rfl | rfl
  · exact hne
  · exact List.cons_ne_nil _ _

section Closed

variable {contexts begun : List Context} {context : Context}

theorem closed_cons (h : IsGrounded contexts) : closed (context :: contexts) = contexts := by
  cases contexts with
  | nil => exact h.elim
  | cons top below =>
    unfold closed
    split <;> simp_all [IsGrounded]

/-- No parenthesis ends the body of a function. -/
theorem closed_cons_of_ne (hne : contexts ≠ []) (h : context ≠ .braceStatement) :
    closed (context :: contexts) = contexts := by
  cases contexts with
  | nil => exact absurd rfl hne
  | cons top below =>
    unfold closed
    split <;> simp_all

/-- The brace at the end of a body also closes what the word `function` has opened. -/
theorem closed_body (h : IsGrounded contexts) (hb : IsBegun contexts begun) :
    closed (.braceStatement :: begun) = contexts := by
  rcases hb with rfl | rfl
  · exact closed_cons h
  · rfl

end Closed

section Step

variable (c : ContextStack) (previous : TokenKind) {kind : TokenKind} (afterLineBreak : Bool)

theorem stack_close : c.close.stack = closed c.stack := by
  obtain ⟨contexts, allowed⟩ := c
  unfold close closed
  cases contexts with
  | nil => rfl
  | cons context below =>
    cases below with
    | nil => rfl
    | cons next below => cases context <;> cases next <;> rfl

theorem stack_step (h : kind.opensContext = false) :
    (c.step previous kind afterLineBreak).stack = closedBy kind c.stack := by
  unfold step
  split
  · rename_i hword
    cases kind <;> first | rfl | simp [TokenKind.isKeyword, TokenKind.keyword?] at hword
  · cases kind with
    | parenR | braceR => exact stack_close c
    | keyword word => cases word <;> first | rfl | cases h
    | _ => first | rfl | cases h

theorem stack_step_parenL :
    ∃ context, IsGrounded (context :: c.stack) ∧
      (context = .parenStatement ∨ context = .parenExpression) ∧
      (c.step previous .parenL afterLineBreak).stack = context :: c.stack := by
  simp only [step, TokenKind.isKeyword, TokenKind.keyword?, Option.isSome_none, Bool.false_and,
    Bool.false_eq_true, if_false]
  split
  case h_5 => exact ⟨.parenExpression, ⟨nofun, nofun⟩, .inr rfl, rfl⟩
  all_goals exact ⟨.parenStatement, ⟨nofun, nofun⟩, .inl rfl, rfl⟩

theorem stack_step_braceL :
    ∃ context, IsGrounded (context :: c.stack) ∧
      (context = .braceStatement ∨ context = .braceExpression) ∧
      (c.step previous .braceL afterLineBreak).stack = context :: c.stack := by
  simp only [step, TokenKind.isKeyword, TokenKind.keyword?, Option.isSome_none, Bool.false_and,
    Bool.false_eq_true, if_false]
  split
  · exact ⟨.braceStatement, ⟨nofun, nofun⟩, .inl rfl, rfl⟩
  · exact ⟨.braceExpression, ⟨nofun, nofun⟩, .inr rfl, rfl⟩

theorem stack_step_backQuote (h : IsGrounded c.stack) :
    (c.step previous .backQuote afterLineBreak).stack = .quoteTemplate :: c.stack := by
  obtain ⟨contexts, allowed⟩ := c
  cases contexts with
  | nil => exact h.elim
  | cons context below =>
    obtain ⟨-, hne⟩ := h
    simp [step, TokenKind.isKeyword, TokenKind.keyword?, backQuote, top, hne]

theorem stack_step_endQuote {contexts : List Context} (h : c.stack = .quoteTemplate :: contexts) :
    (c.step previous .backQuote afterLineBreak).stack = contexts := by
  simp [step, TokenKind.isKeyword, TokenKind.keyword?, backQuote, top, h]

theorem stack_step_function :
    IsBegun c.stack (c.step previous (.keyword .function) afterLineBreak).stack := by
  unfold step
  split
  · exact .inl rfl
  · dsimp only
    split
    · exact .inl rfl
    · exact .inr rfl

/-- Behind a dot no word is more than a name. -/
theorem stack_step_dot (h : kind = .name ∨ kind.isKeyword = true) :
    (c.step .dot kind afterLineBreak).stack = c.stack := by
  rcases h with rfl | h
  · rfl
  · simp [step, h]

end Step

end ContextStack

namespace TokenStream

open ContextStack

variable {s t : TokenStream} {contexts : List Context} {previous : TokenKind}

/-- The current token comes behind a token of the kind `previous`, and the contexts are those
before it. -/
structure LiesBehind (previous : TokenKind) (contexts : List Context) (s : TokenStream) :
    Prop where
  spelled : IsSpelled s.token.kind s.token.value s.token.text
  context_eq : ∃ allowed afterLineBreak,
    s.context = step ⟨contexts, allowed⟩ previous s.token.kind afterLineBreak

/-- The contexts are those before the current token. -/
def Lies (contexts : List Context) (s : TokenStream) : Prop :=
  ∃ previous, s.LiesBehind previous contexts

theorem LiesBehind.lies (h : s.LiesBehind previous contexts) : s.Lies contexts :=
  ⟨previous, h⟩

theorem liesBehind_of_read {u : Unit} (h : read s = .ok u t) :
    t.LiesBehind s.token.kind s.context.stack := by
  refine ⟨isSpelled_of_read h, ?_⟩
  obtain ⟨m, l, hm, -, rfl⟩ := of_read h
  refine ⟨s.context.expressionAllowed, m.markStart.afterLineBreak, ?_⟩
  change m.context.step m.token.kind l.kind _ = s.context.step s.token.kind l.kind _
  rw [hm.context_eq, hm.token_eq]

/-- The contexts that a token leaves behind are those before the next one. -/
theorem liesBehind_of_advance {u : Unit} (h : advance s = .ok u t) :
    t.LiesBehind s.token.kind s.context.stack := by
  have hlies := liesBehind_of_read h
  exact hlies

/-- The first token of a text lies in the lowest context. -/
theorem liesBehind_first {text : List Char} {u : Unit} (h : read (ofText text) = .ok u t) :
    t.LiesBehind .eof [.braceStatement] :=
  liesBehind_of_read h

theorem Lies.stack_eq (h : s.Lies contexts) (hk : s.token.kind.opensContext = false) :
    s.context.stack = closedBy s.token.kind contexts := by
  obtain ⟨previous, -, allowed, afterLineBreak, heq⟩ := h
  rw [heq]
  exact stack_step _ _ _ hk

end TokenStream

end EcmaTree
