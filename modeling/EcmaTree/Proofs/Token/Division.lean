import EcmaTree.Proofs.Token.Balance
import EcmaTree.Proofs.Token.Operators

/-!
# Where an expression may begin

A slash begins a regular expression only where an expression may begin. Behind names, literals and
the brackets of an expression none may.
-/

namespace EcmaTree

open ContextStack

/-- The signs that divide, `/` and `/=`. -/
def IsDivision (kind : TokenKind) (value : TokenValue) : Prop :=
  kind = .slash ∨ (kind = .assign ∧ value = .operator "/=")

theorem not_isDivision_of_kind {kind : TokenKind} {value : TokenValue}
    (h : (kind == .slash || kind == .assign) = false) : ¬IsDivision kind value := by
  rintro (rfl | ⟨rfl, -⟩) <;> cases h

/-- Only a slash divides. -/
theorem Punctuator.head_of_isDivision {p : Punctuator} {c : Char} {rest : List Char}
    (hp : p ∈ table) (hfront : p.spelling.toList.isPrefixOf (c :: rest) = true)
    (h : IsDivision p.kind p.lexeme.value) : c = '/' := by
  have hslash : ∀ p ∈ table, p.kind = .slash → p.spelling = "/" := by decide
  have hspelling : p.spelling.toList.head? = some '/' := by
    rcases h with hk | ⟨-, hvalue⟩
    · rw [hslash p hp hk]
      rfl
    · unfold lexeme at hvalue
      dsimp only at hvalue
      split at hvalue
      · rw [TokenValue.operator.inj hvalue]
        rfl
      · cases hvalue
  obtain ⟨tail, htail⟩ := List.head?_eq_some_iff.mp hspelling
  obtain ⟨more, hmore⟩ := List.isPrefixOf_iff_prefix.mp hfront
  rw [htail] at hmore
  exact (List.cons.inj hmore).1.symm

namespace Lexeme

theorem allowed_of_regexp {allowed : Bool} {text : List Char} {l : Lexeme}
    (h : read allowed text = .ok l) (hk : l.kind = .regexp) : allowed = true := by
  unfold read at h
  split at h
  · cases h
    cases hk
  split at h
  · cases h
    unfold word at hk
    dsimp only at hk
    split at hk <;> cases hk
  split at h
  · cases (Number.kind_of_read h).symm.trans hk
  split at h
  · obtain ⟨r, -, rfl⟩ := Quoted.of_map h
    cases hk
  split at h
  · next hslash => exact (Bool.and_eq_true_iff.mp hslash).2
  split at h
  · next hp =>
    have hkinds : ∀ p ∈ Punctuator.table, p.kind ≠ .regexp := by decide
    cases h
    obtain ⟨p, hmem, rfl⟩ := Option.map_eq_some_iff.mp hp
    exact absurd hk (hkinds p (List.mem_of_find?_eq_some hmem))
  · cases h

/-- Where an expression may begin no division sign is read. -/
theorem not_isDivision_of_read {text : List Char} {l : Lexeme} (h : read true text = .ok l) :
    ¬IsDivision l.kind l.value := by
  unfold read at h
  split at h
  · cases h
    exact not_isDivision_of_kind rfl
  split at h
  · cases h
    unfold word
    dsimp only
    split <;> exact not_isDivision_of_kind rfl
  split at h
  · rw [Number.kind_of_read h]
    exact not_isDivision_of_kind rfl
  split at h
  · obtain ⟨r, -, rfl⟩ := Quoted.of_map h
    exact not_isDivision_of_kind rfl
  split at h
  · unfold Regexp.read at h
    dsimp only at h
    repeat' split at h
    all_goals cases h
    exact not_isDivision_of_kind rfl
  split at h
  · next hslash _ _ hp =>
    cases h
    obtain ⟨p, hfind, rfl⟩ := Option.map_eq_some_iff.mp hp
    intro hdivision
    have hfront := List.find?_some hfind
    have hc := Punctuator.head_of_isDivision (List.mem_of_find?_eq_some hfind) hfront hdivision
    exact hslash (Bool.and_eq_true_iff.mpr ⟨beq_iff_eq.mpr hc, rfl⟩)
  · cases h

end Lexeme

namespace ContextStack

variable (c : ContextStack) (previous : TokenKind) {kind : TokenKind} (afterLineBreak : Bool)
  {contexts : List Context} {context : Context}

theorem top_of_stack (h : c.stack = context :: contexts) : c.top = context := by
  rw [top, h]
  rfl

/-- Behind a token that ends an operand no expression may begin. -/
theorem not_allowed_step (hm : kind.movesStack = false) (hk : kind ≠ .incDec)
    (hb : kind.beforeExpression = false) :
    (c.step previous kind afterLineBreak).expressionAllowed = false := by
  unfold step
  split
  · rfl
  · split <;> first | rfl | exact hb | exact absurd rfl hk | cases hm

/-- Behind a token that comes before an expression one may begin, unless the token is only a name
behind a dot. -/
theorem allowed_step (hp : previous ≠ .dot) (hb : kind.beforeExpression = true) :
    (c.step previous kind afterLineBreak).expressionAllowed = true := by
  unfold step
  rw [beq_eq_false_iff_ne.mpr hp, Bool.and_false, if_neg Bool.false_ne_true]
  split <;> first | rfl | exact hb | (split <;> rfl) | cases hb

theorem not_allowed_step_dot (h : kind = .name ∨ kind.isKeyword = true) :
    (c.step .dot kind afterLineBreak).expressionAllowed = false := by
  rcases h with rfl | h
  · rfl
  · simp [step, h]

theorem not_allowed_step_backQuote :
    (c.step previous .backQuote afterLineBreak).expressionAllowed = false := by
  change c.backQuote.expressionAllowed = false
  unfold backQuote
  split <;> rfl

/-- Behind a bracket of an expression no expression may begin. -/
theorem not_allowed_close (h : c.stack = context :: contexts) (hne : contexts ≠ [])
    (hc : context = .parenExpression ∨ context = .braceExpression) :
    c.close.expressionAllowed = false := by
  obtain ⟨stack, allowed⟩ := c
  obtain rfl : stack = context :: contexts := h
  obtain ⟨below, more, rfl⟩ := List.exists_cons_of_ne_nil hne
  rcases hc with rfl | rfl <;> rfl

theorem not_allowed_close_function
    (h : c.stack = .braceStatement :: .functionExpression :: contexts) :
    c.close.expressionAllowed = false := by
  obtain ⟨stack, allowed⟩ := c
  obtain rfl : stack = .braceStatement :: .functionExpression :: contexts := h
  rfl

/-- A parenthesis is taken for the head of a statement only behind a word that has one. -/
theorem not_isQuiet_of_top
    (h : (c.step previous .parenL afterLineBreak).top = .parenStatement) :
    previous.isQuiet = false := by
  unfold step at h
  split at h
  · next hword => cases (Bool.and_eq_true_iff.mp hword).1
  · dsimp only at h
    split at h <;> first | rfl | cases h

end ContextStack

namespace TokenStream

variable {s t : TokenStream} {σ : List Context} {context : Context}

/-- A regular expression is read only where an expression may begin. -/
theorem allowed_of_regexp (h : Step s t) (hk : t.token.kind = .regexp) :
    s.context.expressionAllowed = true := by
  obtain ⟨m, l, hm, hl, rfl⟩ := of_read h.2
  have hcontext : m.context = s.context := hm.context_eq
  unfold lexeme at hl
  split at hl
  · cases hl
    cases hk
  split at hl
  · unfold Template.read at hl
    repeat' split at hl
    all_goals first | cases hl; done | (cases hl; cases hk)
  · exact hcontext ▸ Lexeme.allowed_of_regexp hl hk

/-- Where an expression may begin the next token is no division sign. -/
theorem not_isDivision_of_allowed (h : Step s t) (ha : s.context.expressionAllowed = true) :
    ¬IsDivision t.token.kind t.token.value := by
  obtain ⟨m, l, hm, hl, rfl⟩ := of_read h.2
  have hcontext : m.context = s.context := hm.context_eq
  unfold lexeme at hl
  split at hl
  · cases hl
    exact not_isDivision_of_kind rfl
  split at hl
  · unfold Template.read at hl
    repeat' split at hl
    all_goals cases hl
    all_goals exact not_isDivision_of_kind rfl
  · rw [show m.markStart.context.expressionAllowed = true from hcontext ▸ ha] at hl
    exact Lexeme.not_isDivision_of_read hl

/-- What the reader has made of the current token. -/
theorem Lies.exists_context (h : s.Lies σ) : ∃ c : ContextStack, c.stack = σ ∧
    ∃ previous afterLineBreak, s.context = c.step previous s.token.kind afterLineBreak := by
  obtain ⟨previous, -, allowed, afterLineBreak, heq⟩ := h
  exact ⟨⟨σ, allowed⟩, rfl, previous, afterLineBreak, heq⟩

theorem Lies.stack_of_parenL (h : s.Lies σ) (hk : s.token.kind = .parenL) :
    ∃ context, IsGrounded (context :: σ) ∧
      (context = .parenStatement ∨ context = .parenExpression) ∧
      s.context.stack = context :: σ := by
  obtain ⟨c, rfl, previous, afterLineBreak, heq⟩ := h.exists_context
  rw [heq, hk]
  exact stack_step_parenL c previous afterLineBreak

theorem Lies.stack_of_braceL (h : s.Lies σ) (hk : s.token.kind = .braceL) :
    ∃ context, IsGrounded (context :: σ) ∧
      (context = .braceStatement ∨ context = .braceExpression) ∧
      s.context.stack = context :: σ := by
  obtain ⟨c, rfl, previous, afterLineBreak, heq⟩ := h.exists_context
  rw [heq, hk]
  exact stack_step_braceL c previous afterLineBreak

theorem Lies.stack_of_function (h : s.Lies σ) (hk : s.token.kind = .keyword .function) :
    IsBegun σ s.context.stack := by
  obtain ⟨c, rfl, previous, afterLineBreak, heq⟩ := h.exists_context
  rw [heq, hk]
  exact stack_step_function c previous afterLineBreak

theorem Lies.not_allowed (h : s.Lies σ) (hm : s.token.kind.movesStack = false)
    (hk : s.token.kind ≠ .incDec) (hb : s.token.kind.beforeExpression = false) :
    s.context.expressionAllowed = false := by
  obtain ⟨c, -, previous, afterLineBreak, heq⟩ := h.exists_context
  rw [heq]
  exact not_allowed_step c previous afterLineBreak hm hk hb

theorem Lies.not_allowed_closed (h : s.Lies (context :: σ)) (hσ : σ ≠ [])
    (hk : s.token.kind.closesContext = true)
    (hc : context = .parenExpression ∨ context = .braceExpression) :
    s.context.expressionAllowed = false := by
  obtain ⟨c, hstack, previous, afterLineBreak, heq⟩ := h.exists_context
  have hclose : s.context = c.close := by
    rw [heq]
    generalize s.token.kind = k at hk
    cases k <;> first | rfl | cases hk
  rw [hclose]
  exact not_allowed_close c hstack hσ hc

theorem Lies.not_allowed_function (h : s.Lies (.braceStatement :: .functionExpression :: σ))
    (hk : s.token.kind = .braceR) : s.context.expressionAllowed = false := by
  obtain ⟨c, hstack, previous, afterLineBreak, heq⟩ := h.exists_context
  rw [heq, hk]
  exact not_allowed_close_function c hstack

theorem Lies.not_allowed_backQuote (h : s.Lies σ) (hk : s.token.kind = .backQuote) :
    s.context.expressionAllowed = false := by
  obtain ⟨c, -, previous, afterLineBreak, heq⟩ := h.exists_context
  rw [heq, hk]
  exact not_allowed_step_backQuote c previous afterLineBreak

end TokenStream

end EcmaTree
