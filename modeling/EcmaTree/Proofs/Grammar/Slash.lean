import EcmaTree.Proofs.Grammar.Balance
import EcmaTree.Proofs.Grammar.Liberty
import EcmaTree.Proofs.Token.Division

/-!
# Slashes behind operands

The reader tells a division from a regular expression by the kinds of the tokens before the slash,
and by what it takes brackets for. It agrees with the grammar behind all operands but some. One that
begins with a bracket or the word `function` is taken for the beginning of a statement in some
places, and the arguments behind the name `if` are taken for the head of a statement.
-/

namespace EcmaTree

open EcmaTree.Parser EcmaTree.Grammar EcmaTree.Reading Node ContextStack

namespace Node

/-- An operand that ends, unless in parentheses, in a name that is also a word before the head of a
statement. -/
def endsInHead : {c : Category} → Node c → Bool
  | _, .member _ _ (.identifier id) false =>
    (Keyword.ofWord? id.name).any fun word => !(TokenKind.keyword word).isQuiet
  | _, .new _ callee _ => endsInHead callee
  | _, _ => false

/-- An operand with arguments behind such a name. -/
def callsHead : {c : Category} → Node c → Bool
  | _, .call _ callee _ => endsInHead callee
  | _, .new _ callee _ => endsInHead callee || callsHead callee
  | _, _ => false

end Node

namespace ParseState

variable {s t u : ParseState} {stop : TokenKind} {σ : List Context}

/-- The reader has taken the token at which an operand begins for the beginning of a statement. -/
def IsMisread (s : ParseState) : Prop :=
  match s.kind with
  | .parenL => s.stream.context.top = .parenStatement
  | .braceL => s.stream.context.top = .braceStatement
  | .keyword .function => s.stream.context.top ≠ .functionExpression
  | _ => False

/-- The last token is of the kind `stop`, and the contexts before it are those at the beginning. -/
def EndsWith (stop : TokenKind) (s u : ParseState) : Prop :=
  ∃ w : TokenStream, TokenStream.Step w u.stream ∧ w.token.kind = stop ∧
    ∀ σ, IsGrounded σ → s.stream.Lies σ → w.Lies σ

/-- How an operand ends: in a word before the head of a statement only if this is its name, and so
that an expression may begin behind it only if arguments stand behind such a name, or for the reason
that is given. -/
def EndsOperand (reason : Prop) (e : Expression) (u : ParseState) : Prop :=
  ∃ w : TokenStream, TokenStream.Step w u.stream ∧
    (w.token.kind.isQuiet = false → e.endsInHead = true) ∧
    (w.context.expressionAllowed = true → e.callsHead = true ∨ reason)

theorem step_of_takes {k : TokenKind} (h : Takes k s u) (hk : k ≠ .eof) :
    TokenStream.Step s.stream u.stream :=
  Trail.step_of_advance (h.1 ▸ hk) h.2

theorem endsWith_of_takes (h : Takes stop s u) (hk : stop ≠ .eof) : s.EndsWith stop u :=
  ⟨s.stream, step_of_takes h hk, h.1, fun _ _ hs => hs⟩

theorem Keeps.endsWith (h : s.Keeps t) (h' : t.EndsWith stop u) : s.EndsWith stop u := by
  obtain ⟨w, hstep, hk, hlies⟩ := h'
  exact ⟨w, hstep, hk, fun σ hσ hs => hlies σ hσ (h σ hσ hs)⟩

theorem EndsOperand.imp {reason reason' : Prop} {e : Expression} (h : u.EndsOperand reason e)
    (himp : reason → reason') : u.EndsOperand reason' e := by
  obtain ⟨w, hstep, hname, hallowed⟩ := h
  exact ⟨w, hstep, hname, fun ha => (hallowed ha).imp_right himp⟩

end ParseState

/-- What holds of the answer to a goal if no property in it has the key `function`: lists end with
their last token, and operands as described. -/
def Goal.Settles (g : Goal) (s : ParseState) (r : g.Result) (u : ParseState) : Prop :=
  match g, r with
  | .statements _ stop, r => stop ≠ .eof → (∀ x ∈ r, x.IsUnkeyed) → s.EndsWith stop u
  | .elements stop _ _ _ _, r => stop ≠ .eof → (∀ x, some x ∈ r.1 → x.IsUnkeyed) →
    s.EndsWith stop u
  | .members _ _, r => (∀ x ∈ r.1, x.IsUnkeyed) → s.EndsWith .braceR u
  | .primary _, r => r.1.IsUnkeyed → s.stream.IsPlaced →
    (∀ o, s.arrowStart = some o → o ≤ s.place.offset) →
    (s.arrowStart = some s.place.offset → isArrowAt s.place r.1 = false) →
    ∀ σ, IsGrounded σ → s.stream.Lies σ →
      u.EndsOperand (∃ v, Relation.ReflTransGen (Takes (.keyword .new)) s v ∧ v.IsMisread) r.1
  | .suffixes base _ _, r => r.IsUnkeyed → ∀ σ, IsGrounded σ → s.stream.Lies σ →
    ∀ reason, s.EndsOperand reason base → u.EndsOperand (reason ∧ r = base ∧ u = s) r
  | _, _ => True

namespace Slash

open Balance

variable {options : ParseOptions} {d : Descent} {s t u : ParseState} {σ : List Context}
  {k : TokenKind} {e callee : Expression} {reason : Prop}

section Tokens

theorem endsOperand_of_isQuiet {w : TokenStream} (h : TokenStream.Step w u.stream)
    (hk : w.token.kind.isQuiet = true)
    (ha : w.context.expressionAllowed = true → e.callsHead = true ∨ reason) :
    u.EndsOperand reason e :=
  ⟨w, h, fun hq => absurd (hk.symm.trans hq) (by decide), ha⟩

theorem endsOperand_of_not_allowed {w : TokenStream} (h : TokenStream.Step w u.stream)
    (hk : w.token.kind.isQuiet = true) (ha : w.context.expressionAllowed = false) :
    u.EndsOperand reason e :=
  endsOperand_of_isQuiet h hk fun ht => absurd (ha.symm.trans ht) (by decide)

/-- The contexts behind a token are those before the next one. -/
theorem lies_behind (h : Takes k s u) : u.stream.Lies s.stream.context.stack := by
  obtain ⟨stream, hstream, rfl⟩ := advance_eq_ok.mp h.2
  exact (TokenStream.liesBehind_of_advance hstream).lies

/-- An operand that ends in a token of its own. -/
theorem endsOperand_of_takes (h : Takes k s u) (hs : s.stream.Lies σ)
    (hk : k.movesStack = false ∧ k ≠ .incDec ∧ k.beforeExpression = false ∧ k.isQuiet = true ∧
      k ≠ .eof) : u.EndsOperand reason e := by
  obtain ⟨hm, hne, hb, hq, heof⟩ := hk
  obtain rfl := h.1
  exact endsOperand_of_not_allowed (ParseState.step_of_takes h heof) hq (hs.not_allowed hm hne hb)

/-- Behind the brackets of an expression no expression may begin. -/
theorem endsOperand_of_brackets {stop : TokenKind} {context : Context} (opening : Takes k s t)
    (hstack : s.stream.context.stack = context :: σ) (hgrounded : IsGrounded (context :: σ))
    (hσ : IsGrounded σ) (h : t.EndsWith stop u)
    (hstop : stop.closesContext = true ∧ stop.isQuiet = true)
    (hc : (context = .parenExpression ∨ context = .braceExpression) ∨
      e.callsHead = true ∨ reason) : u.EndsOperand reason e := by
  obtain ⟨w, hstep, rfl, hlies⟩ := h
  have hw : w.Lies (context :: σ) := hlies _ hgrounded (hstack ▸ lies_behind opening)
  rcases hc with hexpression | hallowed
  · exact endsOperand_of_not_allowed hstep hstop.2
      (hw.not_allowed_closed hσ.ne_nil hstop.1 hexpression)
  · exact endsOperand_of_isQuiet hstep hstop.2 fun _ => hallowed

theorem endsOperand_of_parens (opening : Takes .parenL s t) (h : t.EndsWith .parenR u)
    (hσ : IsGrounded σ) (hs : s.stream.Lies σ) : u.EndsOperand s.IsMisread e := by
  obtain ⟨context, hgrounded, hcontext, hstack⟩ := hs.stack_of_parenL opening.1
  refine endsOperand_of_brackets opening hstack hgrounded hσ h ⟨rfl, rfl⟩ ?_
  rcases hcontext with rfl | rfl
  · refine .inr (.inr ?_)
    simp [ParseState.IsMisread, opening.1, top_of_stack _ hstack]
  · exact .inl (.inl rfl)

theorem endsOperand_of_braces (opening : Takes .braceL s t) (h : t.EndsWith .braceR u)
    (hσ : IsGrounded σ) (hs : s.stream.Lies σ) : u.EndsOperand s.IsMisread e := by
  obtain ⟨context, hgrounded, hcontext, hstack⟩ := hs.stack_of_braceL opening.1
  refine endsOperand_of_brackets opening hstack hgrounded hσ h ⟨rfl, rfl⟩ ?_
  rcases hcontext with rfl | rfl
  · refine .inr (.inr ?_)
    simp [ParseState.IsMisread, opening.1, top_of_stack _ hstack]
  · exact .inl (.inr rfl)

/-- Behind a dot a word is only a name. -/
theorem endsOperand_of_dot {id : Identifier} (dot : Takes .dot s t)
    (h : identifier true t = .ok id u) (hs : s.stream.Lies σ) (span : Span) (base : Expression) :
    u.EndsOperand reason (.member span base (.identifier id) false) := by
  obtain ⟨name, value, hk, word, rfl⟩ := of_identifier h
  have hlies := liesBehind_of_takes dot rfl hs
  obtain ⟨hspelled, allowed, afterLineBreak, heq⟩ := hlies
  have hword : t.kind = .name ∨ t.kind.isKeyword = true := hk.imp_right And.right
  have heof : t.kind ≠ .eof := by
    intro heof
    rw [heof] at hword
    rcases hword with hname | hkeyword
    · cases hname
    · cases hkeyword
  have hflag : t.stream.context.expressionAllowed = false := by
    rw [heq]
    exact not_allowed_step_dot _ _ hword
  refine ⟨t.stream, ParseState.step_of_takes ⟨rfl, word⟩ heof, fun hq => ?_,
    fun ht => absurd (hflag.symm.trans ht) (by decide)⟩
  rcases hword with hname | hkeyword
  · rw [ParseState.kind] at hname
    rw [hname] at hq
    cases hq
  · obtain ⟨k, hk⟩ := Option.isSome_iff_exists.mp hkeyword
    have hkind : t.stream.token.kind = .keyword k := TokenKind.eq_of_keyword? hk
    have hname := hspelled.keyword k hkind name value
    rw [hkind] at hq
    simp [endsInHead, hname, hq]

end Tokens

section Rules

/- The answers that a rule depends on keep to the contexts and end as described. -/
variable (hb : ∀ g s r u, d g s = .ok r u → g.Balances s r u)
  (hd : ∀ g s r u, d g s = .ok r u → g.Settles s r u)

include hb hd

theorem endsWith_statements {inPrologue : Bool} {stop : TokenKind} {r : List Statement}
    (hstop : stop ≠ .eof) (h : Statements d inPrologue stop s r u)
    (hr : ∀ x ∈ r, x.IsUnkeyed) : s.EndsWith stop u := by
  cases h with
  | closed different closing => exact ParseState.endsWith_of_takes closing hstop
  | ended same => exact absurd same hstop
  | directive more_text prologue statement_ok isDirective more =>
    obtain ⟨-, hrest⟩ := List.forall_mem_cons.mp hr
    have hstatement : s.Keeps _ := hb _ _ _ _ statement_ok (isUnkeyed_of_directive isDirective)
    exact (hstatement.trans (keeps_of_stream_eq (stream_obeyed _ _))).endsWith
      (hd _ _ _ _ more hstop hrest)
  | statement more_text not_directive statement_ok more =>
    obtain ⟨hx, hrest⟩ := List.forall_mem_cons.mp hr
    have hstatement : s.Keeps _ := hb _ _ _ _ statement_ok hx
    exact hstatement.endsWith (hd _ _ _ _ more hstop hrest)

theorem endsWith_elements {stop : TokenKind} {trailingComma holes isFirst : Bool}
    {pending : Pending} {r : List (Option Element) × Pending} (hstop : stop ≠ .eof)
    (h : Elements d stop trailingComma holes isFirst pending s r u)
    (hr : ∀ x, some x ∈ r.1 → x.IsUnkeyed) : s.EndsWith stop u := by
  cases h with
  | closed closing => exact ParseState.endsWith_of_takes closing hstop
  | trailing comma closing =>
    exact (keeps_of_separator comma).endsWith (ParseState.endsWith_of_takes closing hstop)
  | item comma item_ok more =>
    have hitem := keeps_listElement hb item_ok fun x hx => hr x (List.mem_cons.mpr (.inl hx.symm))
    have hmore := hd _ _ _ _ more hstop fun x hx => hr x (List.mem_cons_of_mem _ hx)
    exact ((keeps_of_separator comma).trans hitem).endsWith hmore

theorem endsWith_members {isFirst : Bool} {pending : Pending} {r : List Member × Pending}
    (h : Members d isFirst pending s r u) (hr : ∀ x ∈ r.1, x.IsUnkeyed) :
    s.EndsWith .braceR u := by
  cases h with
  | closed closing => exact ParseState.endsWith_of_takes closing (by decide)
  | trailing comma closing =>
    exact (keeps_of_separator comma).endsWith (ParseState.endsWith_of_takes closing (by decide))
  | item comma item_ok more =>
    obtain ⟨hmember, hmembers⟩ := List.forall_mem_cons.mp hr
    have hitem := keeps_member hb item_ok hmember
    exact ((keeps_of_separator comma).trans hitem).endsWith (hd _ _ _ _ more hmembers)

omit hb in
/-- Behind arguments an expression may begin only if their parenthesis stands behind a word before
the head of a statement. -/
theorem endsOperand_of_arguments {arguments : Node (.list .element)} {reason' : Prop}
    (hcallee : s.EndsOperand reason callee) (hσ : IsGrounded σ) (hs : s.stream.Lies σ)
    (opening : Takes .parenL s t) (h : suffixes.callArguments d t = .ok arguments u)
    (ha : arguments.IsUnkeyed) (hcalls : callee.endsInHead = true → e.callsHead = true) :
    u.EndsOperand reason' e := by
  obtain ⟨elements, hitems, rfl⟩ := of_callArguments h
  have hends : t.EndsWith .parenR u :=
    hd _ _ _ _ hitems (by decide) (forall_mem_reduceOption (isUnkeyed_ofList.mp ha))
  obtain ⟨context, hgrounded, hcontext, hstack⟩ := hs.stack_of_parenL opening.1
  refine endsOperand_of_brackets opening hstack hgrounded hσ hends ⟨rfl, rfl⟩ ?_
  rcases hcontext with rfl | rfl
  · -- The word before the parenthesis is the last one of the callee.
    refine .inr (.inl (hcalls ?_))
    obtain ⟨v, hv, hname, -⟩ := hcallee
    obtain ⟨-, allowed, afterLineBreak, heq⟩ := TokenStream.liesBehind_of_advance hv.2
    have hkind : s.stream.token.kind = .parenL := opening.1
    refine hname (not_isQuiet_of_top ⟨v.context.stack, allowed⟩ _ afterLineBreak ?_)
    rw [← hkind, ← heq, top_of_stack _ hstack]
  · exact .inl (.inl rfl)

theorem endsOperand_suffixes {start : Place} {noCalls : Bool} {base r : Expression}
    (h : Suffixes d base start noCalls s r u) (hr : r.IsUnkeyed) (hσ : IsGrounded σ)
    (hs : s.stream.Lies σ) (hbase : s.EndsOperand reason base) :
    u.EndsOperand (reason ∧ r = base ∧ u = s) r := by
  cases h with
  | done => exact hbase.imp fun h => ⟨h, rfl, rfl⟩
  | name dot name_ok more =>
    have hlies := keeps_of_dot dot name_ok σ hσ hs
    have hmore := hd _ _ _ _ more hr σ hσ hlies False (endsOperand_of_dot dot name_ok hs _ _)
    exact hmore.imp fun h => h.1.elim
  | @index s₁ property s₂ s₃ _ _ opening property_ok closing more =>
    obtain ⟨he, -⟩ := hb _ _ _ _ more hr
    have hproperty := keeps_expression hb property_ok (he.second rfl)
    have h₂ := hproperty σ hσ (lies_of_takes opening rfl hs)
    have hend : s₃.EndsOperand False (.member (s₃.spanFrom start) base property true) :=
      endsOperand_of_takes closing h₂ (by decide)
    exact (hd _ _ _ _ more hr σ hσ (lies_of_takes closing rfl h₂) False hend).imp
      fun h => h.1.elim
  | @call s₁ arguments s₂ _ _ allowed opening arguments_ok more =>
    obtain ⟨he, -⟩ := hb _ _ _ _ more hr
    have hlies := keeps_of_parens opening
      (closes_callArguments hb arguments_ok (he.second rfl)) σ hσ hs
    have hend : s₂.EndsOperand False (.call (s₂.spanFrom start) base arguments) :=
      endsOperand_of_arguments hd hbase hσ hs opening arguments_ok (he.second rfl) fun h => h
    exact (hd _ _ _ _ more hr σ hσ hlies False hend).imp fun h => h.1.elim

/-- Behind the body of a function an expression may begin only if the reader has taken the word
`function` for a declaration. -/
theorem endsOperand_function {start : Place} {f : FunctionParts}
    (word : Takes (.keyword .function) s t) (h : Function d start false t f u)
    (hparams : (ofList f.params).IsUnkeyed) (hbody : f.body.IsUnkeyed) (hσ : IsGrounded σ)
    (hs : s.stream.Lies σ) : u.EndsOperand s.IsMisread e := by
  have hbegun := hs.stack_of_function word.1
  have ht := lies_behind word
  cases h with
  | intro star name opening params_ok body_ok =>
    have h₁ := lies_of_eats star rfl ht
    have h₂ := by
      cases name with
      | named name_ok => exact lies_of_identifier name_ok h₁
      | anonymous => exact h₁
    have hlist := closes_parameters hb params_ok (isUnkeyed_ofList.mp hparams)
    have h₄ := liesBehind_of_parens opening hlist (hbegun.ne_nil hσ.ne_nil) h₂
    cases body_ok with
    | intro body_ok =>
      obtain ⟨s₅, body, brace, statements_ok, rfl⟩ := of_block body_ok
      obtain ⟨w, hstep, hk, hlies⟩ :=
        hd _ _ _ _ statements_ok (by decide) (isUnkeyed_ofList.mp (hbody.first rfl))
      have hw := hlies (.braceStatement :: s.stream.context.stack) ⟨nofun, nofun⟩
        (lies_of_body brace h₄)
      have hquiet : w.token.kind.isQuiet = true := hk ▸ rfl
      rcases hbegun with hsame | hpushed
      · refine endsOperand_of_isQuiet hstep hquiet fun _ => .inr ?_
        have htop : s.stream.context.top ≠ .functionExpression := by
          obtain ⟨context, below, rfl⟩ := List.exists_cons_of_ne_nil hσ.ne_nil
          rw [top_of_stack _ hsame]
          exact hσ.1
        simpa [ParseState.IsMisread, word.1] using htop
      · rw [hpushed] at hw
        exact endsOperand_of_not_allowed hstep hquiet (hw.not_allowed_function hk)

omit hd in
theorem endsOperand_parenthesized {start : Place} {canBeArrow : Bool}
    (h : ParenthesizedExpression d start canBeArrow s e u) (he : e.IsUnkeyed)
    (harrow : canBeArrow = true → isArrowAt start e = false) (hσ : IsGrounded σ)
    (hs : s.stream.Lies σ) : u.EndsOperand s.IsMisread e := by
  cases h with
  | arrow allowed opening items_ok closing patterns_ok legal arrow_ok =>
    obtain ⟨s₄, body, -, -, rfl⟩ := of_arrow arrow_ok
    simp [isArrowAt, ParseState.start_spanFrom] at harrow
    cases harrow.symm.trans allowed
  | single opening items_ok closing no_rest one =>
    have hitems : ParseState.Keeps _ _ :=
      hb _ _ _ _ items_ok (one ▸ List.forall_mem_singleton.mpr he)
    have hends := hitems.endsWith (ParseState.endsWith_of_takes closing (by decide))
    exact endsOperand_of_parens opening hends hσ hs
  | sequence opening items_ok closing =>
    have hitems : ParseState.Keeps _ _ :=
      hb _ _ _ _ items_ok (isUnkeyed_ofList.mp (he.first rfl))
    have hends := hitems.endsWith (ParseState.endsWith_of_takes closing (by decide))
    exact endsOperand_of_parens opening hends hσ hs

theorem endsOperand_new (kind : s.kind = .keyword .new) (h : newExpression d s = .ok e u)
    (he : e.IsUnkeyed) (placed : s.stream.IsPlaced)
    (hmark : ∀ o, s.arrowStart = some o → o ≤ s.place.offset) (hσ : IsGrounded σ)
    (hs : s.stream.Lies σ) :
    u.EndsOperand (∃ v, Relation.ReflTransGen (Takes (.keyword .new)) s v ∧ v.IsMisread) e := by
  obtain ⟨s₁, atom, s₂, callee, s₃, arguments, word, atom_ok, callee_ok, harguments, rfl⟩ :=
    of_newExpression h
  have hnew : Takes (.keyword .new) s s₁ := ⟨kind, word⟩
  obtain ⟨hatom, hsuffixes⟩ := hb _ _ _ _ callee_ok (he.first rfl)
  have hlies₁ := lies_of_takes hnew rfl hs
  -- No arrow function may begin behind `new`.
  have hlt := ParseState.place_lt_of_takes placed hnew (by decide) (by decide)
  have hstart : s₁.arrowStart = s.arrowStart := by
    obtain ⟨stream, -, rfl⟩ := advance_eq_ok.mp word
    rfl
  have hmark₁ : ∀ o, s₁.arrowStart = some o → o ≤ s.place.offset := hstart ▸ hmark
  have hprimary := hd _ _ _ _ atom_ok hatom
    (TokenStream.isPlaced_of_follows placed (Trail.follows_of_takes hnew (by decide)))
    (fun o ho => Nat.le_trans (hmark₁ o ho) (Nat.le_of_lt hlt))
    (fun h => absurd (hmark₁ _ h) (Nat.not_le_of_lt hlt)) σ hσ hlies₁
  have hlies₂ : s₂.stream.Lies σ := by
    have hkeeps : s₁.Keeps s₂ := hb _ _ _ _ atom_ok hatom
    exact hkeeps σ hσ hlies₁
  have hcallee := hd _ _ _ _ callee_ok (he.first rfl) σ hσ hlies₂ _ hprimary
  cases harguments with
  | none =>
    obtain ⟨w, hstep, hname, hallowed⟩ := hcallee
    refine ⟨w, hstep, hname, fun ha => ?_⟩
    rcases hallowed ha with hcalls | ⟨⟨v, hwords, hv⟩, -⟩
    · exact .inl (Bool.or_eq_true_iff.mpr (.inr hcalls))
    · exact .inr ⟨v, .head hnew hwords, hv⟩
  | given opening arguments_ok =>
    exact endsOperand_of_arguments hd hcallee hσ (hsuffixes σ hσ hlies₂) opening arguments_ok
      (he.second rfl) fun hends => Bool.or_eq_true_iff.mpr (.inl hends)

theorem endsOperand_primary {pending : Pending} {r : Expression × Pending}
    (h : Primary d pending s r u) (hr : r.1.IsUnkeyed) (placed : s.stream.IsPlaced)
    (hmark : ∀ o, s.arrowStart = some o → o ≤ s.place.offset)
    (harrow : s.arrowStart = some s.place.offset → isArrowAt s.place r.1 = false)
    (hσ : IsGrounded σ) (hs : s.stream.Lies σ) :
    u.EndsOperand (∃ v, Relation.ReflTransGen (Takes (.keyword .new)) s v ∧ v.IsMisread) r.1 := by
  have here : s.IsMisread → ∃ v, Relation.ReflTransGen (Takes (.keyword .new)) s v ∧ v.IsMisread :=
    fun hmisread => ⟨s, .refl, hmisread⟩
  have hcan : (s.arrowStart == some s.place.offset) = true → isArrowAt s.place r.1 = false :=
    fun h => harrow (eq_of_beq h)
  cases h with
  | name kind name_ok =>
    cases name_ok with
    | name name_ok =>
      obtain ⟨name, -, hk | ⟨⟨⟩, -⟩, word, -⟩ := of_identifier name_ok
      exact endsOperand_of_takes ⟨hk, word⟩ hs (by decide)
    | arrow allowed name_ok arrow_ok =>
      obtain ⟨s₁, body, -, -, rfl⟩ := of_arrow arrow_ok
      have hnot := hcan allowed
      simp [isArrowAt, ParseState.start_spanFrom] at hnot
  | this word => exact endsOperand_of_takes word hs (by decide)
  | literal literal_ok =>
    obtain ⟨value, hvalue, word, -⟩ := of_literal literal_ok
    refine endsOperand_of_takes ⟨rfl, word⟩ hs ?_
    unfold literalValue? at hvalue
    unfold ParseState.kind
    split at hvalue
    all_goals first | cases hvalue; done | (rw [‹s.stream.token.kind = _›]; decide)
  | parenthesis kind parenthesis_ok =>
    cases parenthesis_ok with
    | arrow allowed params_ok arrow_ok =>
      obtain ⟨s₁, body, -, -, rfl⟩ := of_arrow arrow_ok
      have hnot := hcan allowed
      simp [isArrowAt, ParseState.start_spanFrom] at hnot
    | list no_params list_ok => exact (endsOperand_parenthesized hb list_ok hr hcan hσ hs).imp here
  | array opening elements_ok =>
    obtain ⟨w, hstep, hk, hlies⟩ :=
      hd _ _ _ _ elements_ok (by decide) (isUnkeyed_ofHoleyList.mp (hr.first rfl))
    have hw := hlies σ hσ (lies_of_takes opening rfl hs)
    have hnot := hw.not_allowed (hk ▸ rfl) (hk ▸ by decide) (hk ▸ rfl)
    exact endsOperand_of_not_allowed hstep (hk ▸ rfl) hnot
  | object opening members_ok =>
    have hends := hd _ _ _ _ members_ok (isUnkeyed_ofList.mp (hr.first rfl))
    exact (endsOperand_of_braces opening hends hσ hs).imp here
  | function word function_ok =>
    exact (endsOperand_function hb hd word (of_function function_ok) (hr.first rfl)
      (hr.second rfl) hσ hs).imp here
  | template kind template_ok =>
    obtain ⟨s₁, quasis, values, s₂, opening, chunks_ok, closing, rfl⟩ := of_template template_ok
    obtain ⟨hquote, hchunks⟩ := hb _ _ _ _ chunks_ok (isUnkeyed_ofList.mp (hr.first rfl))
    have hw := hchunks σ (lies_of_backQuote opening hσ hs)
    have hk : s₂.stream.token.kind = .backQuote := hquote
    have hstep := ParseState.step_of_takes ⟨hquote, closing⟩ (by decide)
    exact endsOperand_of_not_allowed hstep (hk ▸ rfl) (hw.not_allowed_backQuote hk)
  | new kind new_ok => exact endsOperand_new hb hd kind new_ok hr placed hmark hσ hs

/-- The step of the induction. -/
theorem settles_of_rule {g : Goal} {r : g.Result} (h : rule options d g s = .ok r u) :
    g.Settles s r u := by
  cases g with
  | statements => exact fun hstop => endsWith_statements hb hd hstop (of_statements h)
  | elements => exact fun hstop => endsWith_elements hb hd hstop (of_elements h)
  | members => exact endsWith_members hb hd (of_members h)
  | primary =>
    exact fun hr placed hmark harrow σ hσ hs =>
      endsOperand_primary hb hd (of_primary h) hr placed hmark harrow hσ hs
  | suffixes =>
    exact fun hr σ hσ hs reason hbase =>
      endsOperand_suffixes hb hd (of_suffixes h) hr hσ hs hbase
  | _ => trivial

end Rules

theorem balances_of_descend {g : Goal} {r : g.Result} (h : descend options g s = .ok r u) :
    g.Balances s r u :=
  descend_induction (I := fun g s r u => g.Balances s r u)
    (fun _ hd _ _ _ _ => balances_of_rule hd) g s r u h

theorem settles_of_descend {g : Goal} {r : g.Result} (h : descend options g s = .ok r u) :
    g.Settles s r u := by
  refine (descend_induction (I := fun g s r u => g.Balances s r u ∧ g.Settles s r u)
    (fun d hd g s r u h => ?_) g s r u h).2
  have hb : ∀ g s r u, d g s = .ok r u → g.Balances s r u := fun g s r u h => (hd g s r u h).1
  exact ⟨balances_of_rule hb h, settles_of_rule hb (fun g s r u h => (hd g s r u h).2) h⟩

end Slash

namespace Grammar

open Trail

variable {options : ParseOptions} {s u : ParseState} {pending after : Pending} {e : Expression}

/-- Behind an operand a slash divides. Where a regular expression is read, the operand ends in
arguments behind a name that is also a word before the head of a statement, or there are no suffixes
and the reader has taken the bracket or the word `function` at which it begins, perhaps behind words
`new`, for the beginning of a statement. -/
theorem misread_of_regexp {text : List Char} {s₀ : ParseState} {σ : List Context}
    (begins : Begins options text s₀) (hf : s₀.Follows s)
    (hmark : ∀ o, s.arrowStart = some o → o ≤ s.place.offset) (hσ : IsGrounded σ)
    (hs : s.stream.Lies σ) (h : leftHandSide (descend options) pending s = .ok (e, after) u)
    (he : e.IsUnkeyed) (harrow : isArrowAt s.place e = false) (hk : u.kind = .regexp) :
    e.callsHead = true ∨
      (descend options (.primary pending) s = .ok (e, after) u ∧
        ∃ v, Relation.ReflTransGen (Takes (.keyword .new)) s v ∧ v.IsMisread) := by
  obtain ⟨stream, hread, rfl⟩ := begins
  have hplaced := TokenStream.isPlaced_of_follows (TokenStream.isPlaced_of_read hread) hf
  have allowed_of : ∀ {reason : Prop}, u.EndsOperand reason e → e.callsHead = true ∨ reason := by
    rintro reason ⟨w, hstep, -, hallowed⟩
    exact hallowed (TokenStream.allowed_of_regexp hstep hk)
  cases of_leftHandSide h with
  | atom atom_ok =>
    have hprimary := Slash.settles_of_descend atom_ok he hplaced hmark (fun _ => harrow) σ hσ hs
    exact (allowed_of hprimary).imp_right fun hmisread => ⟨atom_ok, hmisread⟩
  | @suffixed atom s₁ _ _ atom_ok more plain =>
    obtain ⟨hatom, -⟩ := Slash.balances_of_descend more he
    have hprimary := Slash.settles_of_descend atom_ok hatom hplaced hmark (fun _ => plain) σ hσ hs
    have hlies : s₁.stream.Lies σ := by
      have hkeeps : s.Keeps s₁ := Slash.balances_of_descend atom_ok hatom
      exact hkeeps σ hσ hs
    have hmore := Slash.settles_of_descend more he σ hσ hlies _ hprimary
    refine (allowed_of hmore).imp_right ?_
    rintro ⟨hmisread, rfl, rfl⟩
    exact ⟨atom_ok, hmisread⟩

/-- An operand at the beginning of a text, with the states before and behind it. -/
def leadingOperand (d : Descent) : Parser (ParseState × Expression × Pending × ParseState) := do
  scan TokenStream.read
  let s ← get
  let (e, after) ← leftHandSide d none
  return (s, e, after, ← get)

theorem of_leadingOperand {text : List Char} {t : ParseState}
    (h : Grammar.run options leadingOperand (.ofText options text) = .ok (s, e, after, u) t) :
    Begins options text s ∧ leftHandSide (descend options) none s = .ok (e, after) u := by
  simp [Grammar.run, leadingOperand] at h
  obtain ⟨hread, operand_ok, rfl⟩ := h
  have begins := begins_of_scan hread
  cases of_leftHandSide operand_ok with
  | atom atom_ok ends =>
    rw [answer_eq_descend (g := .primary none) begins .refl trivial] at atom_ok
    exact ⟨begins, (LeftHandSide.atom atom_ok ends).run⟩
  | suffixed atom_ok more plain =>
    rw [answer_eq_descend (g := .primary none) begins .refl trivial] at atom_ok
    have hf := follows_of_goal answers_descend.traces atom_ok trivial
    rw [answer_eq_descend (g := .suffixes _ _ false) begins hf trivial] at more
    exact ⟨begins, (LeftHandSide.suffixed atom_ok more plain).run⟩

/-- The arguments behind a name that is also the word `if` are taken for the head of a statement,
and behind them no slash divides. -/
theorem misread_of_regexp_head : ∃ s e after u, Begins {} "a.if(b) / c /".toList s ∧
    s.Follows s ∧ (∀ o, s.arrowStart = some o → o ≤ s.place.offset) ∧
    IsGrounded [.braceStatement] ∧ s.stream.Lies [.braceStatement] ∧
    leftHandSide (descend {}) none s = .ok (e, after) u ∧ e.IsUnkeyed ∧
    isArrowAt s.place e = false ∧ u.kind = .regexp ∧
    (e.callsHead = true ∨
      (descend {} (.primary none) s = .ok (e, after) u ∧
        ∃ v, Relation.ReflTransGen (Takes (.keyword .new)) s v ∧ v.IsMisread)) := by
  have hreading : ((Grammar.run {} leadingOperand).run' (.ofText {} "a.if(b) / c /".toList)).any
      (fun r => r.1.arrowStart == none && decide r.2.1.IsUnkeyed && !isArrowAt r.1.place r.2.1 &&
        r.2.2.2.kind == .regexp) = true := by
    decide +kernel
  obtain ⟨⟨s, e, after, u⟩, t, hrun, htest⟩ := exists_of_run' hreading
  obtain ⟨begins, hoperand⟩ := of_leadingOperand hrun
  obtain ⟨⟨⟨hnone, he⟩, harrow⟩, hk⟩ : ((s.arrowStart = none ∧ e.IsUnkeyed) ∧
      isArrowAt s.place e = false) ∧ u.kind = .regexp := by
    simpa using htest
  have hmark : ∀ o, s.arrowStart = some o → o ≤ s.place.offset := by
    rw [hnone]
    nofun
  have hs : s.stream.Lies [.braceStatement] := by
    obtain ⟨stream, hread, rfl⟩ := begins
    exact (TokenStream.liesBehind_first hread).lies
  have hσ : IsGrounded [.braceStatement] := ⟨nofun, nofun⟩
  exact ⟨s, e, after, u, begins, .refl, hmark, hσ, hs, hoperand, he, harrow, hk,
    misread_of_regexp begins .refl hmark hσ hs hoperand he harrow hk⟩

end Grammar

end EcmaTree
