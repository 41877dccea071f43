import EcmaTree.Proofs.Grammar.Balance.Basic

/-!
# Contexts of targets, functions and operators

What the word `function` has opened is still open at the body of the function, and the brace
that ends the body closes both. So the rest of a function is read in contexts in which no brace
or template may begin before the body, and it leaves those around the function.
-/

namespace EcmaTree.Balance

open EcmaTree.Parser EcmaTree.Grammar EcmaTree.Reading Node ContextStack

variable {d : Descent} {s u : ParseState}

theorem movesStack_of_isUnary {k : TokenKind} (h : k.isUnary = true) : k.movesStack = false := by
  cases k with
  | keyword word => cases word <;> first | rfl | cases h
  | _ => first | rfl | cases h

theorem movesStack_of_isAssignment {k : TokenKind} (h : k.isAssignment = true) :
    k.movesStack = false := by
  cases k <;> first | rfl | cases h

theorem movesStack_of_binaryStrength? {k : TokenKind} {n : Nat} (h : k.binaryStrength? = some n) :
    k.movesStack = false := by
  cases k with
  | keyword word => cases word <;> first | rfl | cases h
  | _ => first | rfl | cases h

theorem name_ne_of_property {span : Span} {key : Key} {value : Expression} {shorthand : Bool}
    (h : (Node.property span key value .init false shorthand).IsUnkeyed) :
    ∀ id, key = .nameKey id → id.name ≠ "function" := by
  rintro id rfl
  simpa [isFunctionKeyed] using h.here

theorem name_ne_of_propertyPattern {span : Span} {key : Key} {value : Pattern} {shorthand : Bool}
    (h : (Node.propertyPattern span key value shorthand).IsUnkeyed) :
    ∀ id, key = .nameKey id → id.name ≠ "function" := by
  rintro id rfl
  simpa [isFunctionKeyed] using h.here

theorem forall_mem_reduceOption {c : Category} {xs : List (Option (Node c))}
    (h : ∀ x ∈ xs.reduceOption, x.IsUnkeyed) : ∀ x, some x ∈ xs → x.IsUnkeyed :=
  fun x hx => h x (List.reduceOption_mem_iff.mpr hx)

section Rules

/- The answers that a rule depends on keep to the contexts. -/
variable (hd : ∀ g s r u, d g s = .ok r u → g.Balances s r u)

include hd

theorem keeps_value {noIn : Bool} {e : Expression} (h : d.value noIn s = .ok e u)
    (he : e.IsUnkeyed) : s.Keeps u := by
  obtain ⟨after, h⟩ := of_value h
  exact hd _ _ _ _ h he

theorem keeps_operand {e : Expression} (h : d.operand s = .ok e u) (he : e.IsUnkeyed) :
    s.Keeps u :=
  hd _ _ _ _ (of_operand h) he

/-- A key may be the word `function`, but nothing else in it does something to the contexts. -/
theorem begins_of_propertyName {key : Key} (h : PropertyName d s key u) (hkey : key.IsUnkeyed) :
    s.Begins u ∧ ((∀ id, key = .nameKey id → id.name ≠ "function") → s.Keeps u) := by
  cases h with
  | computed opening key_ok closing =>
    have hvalue := keeps_value hd key_ok (hkey.first rfl)
    have hkeeps := ((keeps_of_takes opening rfl).trans hvalue).trans (keeps_of_takes closing rfl)
    exact ⟨hkeeps.begins, fun _ => hkeeps⟩
  | literal key_ok => exact ⟨(keeps_of_literal key_ok).begins, fun _ => keeps_of_literal key_ok⟩
  | name key_ok =>
    obtain ⟨hbegins, hkeeps⟩ := begins_of_name key_ok
    exact ⟨hbegins, fun hne => hkeeps (hne _ rfl)⟩

theorem keeps_bindingAtom {p : Pattern} (h : BindingAtom d s p u) (hp : p.IsUnkeyed) :
    s.Keeps u := by
  cases h with
  | name name_ok => exact keeps_of_identifier name_ok
  | array opening items =>
    have helements := hd _ _ _ _ items rfl (isUnkeyed_ofHoleyList.mp (hp.first rfl))
    exact (keeps_of_takes opening rfl).trans (helements.closes.keeps rfl)
  | object opening items =>
    exact keeps_of_braces opening (hd _ _ _ _ items (isUnkeyed_ofList.mp (hp.first rfl)))

theorem keeps_withDefault {start : Place} {target p : Pattern}
    (h : WithDefault d start target s p u) (hp : p.IsUnkeyed) : target.IsUnkeyed ∧ s.Keeps u := by
  cases h with
  | given eq value_ok =>
    have hvalue := keeps_value hd value_ok (hp.second rfl)
    exact ⟨hp.first rfl, (keeps_of_takes eq rfl).trans hvalue⟩
  | bare => exact ⟨hp, .refl s⟩

theorem keeps_bindingElement {p : Pattern} (h : bindingElement d s = .ok p u)
    (hp : p.IsUnkeyed) : s.Keeps u := by
  obtain ⟨target, s₁, hatom, hdefault⟩ := of_bindingElement h
  obtain ⟨htarget, hkeeps⟩ := keeps_withDefault hd hdefault hp
  exact (keeps_bindingAtom hd hatom htarget).trans hkeeps

theorem closes_targets {stop : TokenKind} {holes trailingComma isFirst : Bool}
    {r : List (Option Pattern)} (hstop : stop.opensContext = false)
    (h : Targets d stop holes trailingComma isFirst s r u)
    (hr : ∀ x, some x ∈ r → x.IsUnkeyed) : s.ClosesBehind stop u := by
  cases h with
  | closed closing => exact closesBehind_of_takes closing hstop
  | trailing comma closing =>
    exact (keeps_of_separator comma).closesBehind (closesBehind_of_takes closing hstop)
  | hole comma next more =>
    have hmore := hd _ _ _ _ more hstop fun x hx => hr x (List.mem_cons_of_mem _ hx)
    exact (keeps_of_separator comma).closesBehind hmore
  | rest comma dots rest_ok closing =>
    have hrest := keeps_of_restOfBinding dots rest_ok
    exact ((keeps_of_separator comma).trans hrest).closesBehind
      (closesBehind_of_takes closing hstop)
  | item comma item_ok more =>
    have hitem := keeps_bindingElement hd item_ok (hr _ List.mem_cons_self)
    have hmore := hd _ _ _ _ more hstop fun x hx => hr x (List.mem_cons_of_mem _ hx)
    exact ((keeps_of_separator comma).trans hitem).closesBehind hmore

theorem keeps_patternProperty {m : PatternMember} (h : PatternProperty d s m u)
    (hm : m.IsUnkeyed) : s.Keeps u := by
  cases h with
  | named key_ok colon value_ok =>
    obtain ⟨-, hkey⟩ := begins_of_propertyName hd key_ok (hm.first rfl)
    have hvalue := keeps_bindingElement hd value_ok (hm.second rfl)
    have hplain := hkey (name_ne_of_propertyPattern hm)
    exact (hplain.trans (keeps_of_takes colon rfl)).trans hvalue
  | shorthand key_ok value_ok =>
    obtain ⟨-, hkey⟩ := begins_of_propertyName hd key_ok (hm.first rfl)
    obtain ⟨-, hvalue⟩ := keeps_withDefault hd value_ok (hm.second rfl)
    exact (hkey (name_ne_of_propertyPattern hm)).trans hvalue

theorem closes_patternMembers {isFirst : Bool} {r : List PatternMember}
    (h : PatternMembers d isFirst s r u) (hr : ∀ x ∈ r, x.IsUnkeyed) : s.Closes .braceR u := by
  cases h with
  | closed closing => exact closes_of_takes closing rfl
  | trailing comma closing => exact (keeps_of_separator comma).closes (closes_of_takes closing rfl)
  | rest comma dots rest_ok closing =>
    have hrest := keeps_of_restOfBinding dots rest_ok
    exact ((keeps_of_separator comma).trans hrest).closes (closes_of_takes closing rfl)
  | item comma item_ok more =>
    obtain ⟨hmember, hmembers⟩ := List.forall_mem_cons.mp hr
    have hitem := keeps_patternProperty hd item_ok hmember
    exact ((keeps_of_separator comma).trans hitem).closes (hd _ _ _ _ more hmembers)

theorem keeps_block {directives : Bool} {b : Block} (h : block d directives s = .ok b u)
    (hb : b.IsUnkeyed) : s.Keeps u := by
  obtain ⟨s₁, body, opening, hbody, rfl⟩ := of_block h
  exact keeps_of_braces opening (hd _ _ _ _ hbody rfl (isUnkeyed_ofList.mp (hb.first rfl)))

/-- The block behind the parameters of a function. -/
theorem lies_of_block {b : Block} {σ φ : List Context} (h : block d true s = .ok b u)
    (hb : b.IsUnkeyed) (hσ : IsGrounded σ) (hφ : IsBegun σ φ)
    (hs : s.stream.LiesBehind .parenR φ) : u.stream.Lies σ := by
  obtain ⟨s₁, body, opening, hbody, rfl⟩ := of_block h
  have hstatements := hd _ _ _ _ hbody rfl (isUnkeyed_ofList.mp (hb.first rfl))
  have hu : u.stream.Lies (closed (.braceStatement :: φ)) :=
    hstatements _ ⟨nofun, nofun⟩ (lies_of_body opening hs)
  rwa [closed_body hσ hφ] at hu

theorem closes_parameters {params : List Pattern} (h : parameters d s = .ok params u)
    (hparams : ∀ p ∈ params, p.IsUnkeyed) : s.ClosesBehind .parenR u := by
  obtain ⟨targets, ht, rfl⟩ := of_parameters h
  exact hd _ _ _ _ ht rfl (forall_mem_reduceOption hparams)

/-- A function is free of the key if its parameters and its body are. -/
theorem finishes_function {start : Place} {isDeclaration : Bool} {f : FunctionParts}
    (h : Function d start isDeclaration s f u) (hparams : (ofList f.params).IsUnkeyed)
    (hbody : f.body.IsUnkeyed) : s.Finishes u := by
  cases h with
  | intro star name opening params_ok body_ok =>
    intro σ φ hσ hφ hs
    have h₁ := lies_of_eats star rfl hs
    have h₂ := by
      cases name with
      | named name_ok => exact lies_of_identifier name_ok h₁
      | anonymous => exact h₁
    have hlist := closes_parameters hd params_ok (isUnkeyed_ofList.mp hparams)
    have h₄ := liesBehind_of_parens opening hlist (hφ.ne_nil hσ.ne_nil) h₂
    cases body_ok with
    | intro body_ok =>
      have hu := lies_of_block hd body_ok hbody hσ hφ h₄
      exact hu

theorem finishes_method {generator : Bool} {f : FunctionParts}
    (h : method d generator s = .ok f u) (hparams : (ofList f.params).IsUnkeyed)
    (hbody : f.body.IsUnkeyed) : s.Finishes u := by
  obtain ⟨s₁, s₂, params, body, opening, params_ok, body_ok, rfl⟩ := of_method h
  intro σ φ hσ hφ hs
  have hlist := closes_parameters hd params_ok (isUnkeyed_ofList.mp hparams)
  have h₂ := liesBehind_of_parens opening hlist (hφ.ne_nil hσ.ne_nil) hs
  cases body_ok with
  | intro body_ok =>
    have hu := lies_of_block hd body_ok hbody hσ hφ h₂
    exact hu

theorem keeps_arrowBody {b : Body} (h : arrowBody d s = .ok b u) (hb : b.IsUnkeyed) :
    s.Keeps u := by
  cases of_arrowBody h with
  | block block_ok => exact keeps_block hd block_ok (hb.first rfl)
  | concise value_ok => exact keeps_value hd value_ok (hb.first rfl)

theorem keeps_arrow {start : Place} {params : List Pattern} {e : Expression}
    (h : arrow d start params s = .ok e u) (he : e.IsUnkeyed) :
    (ofList params).IsUnkeyed ∧ s.Keeps u := by
  obtain ⟨s₁, body, word, body_ok, rfl⟩ := of_arrow h
  refine ⟨he.first rfl, (keeps_of_takes word rfl).trans ?_⟩
  cases body_ok with
  | intro body_ok =>
    have hbody := keeps_arrowBody hd body_ok (he.second rfl)
    exact hbody

theorem keeps_expressionWith {noIn owned : Bool} {pending : Pending} {r : Expression × Pending}
    (h : ExpressionWith d noIn owned pending s r u) (hr : r.1.IsUnkeyed) : s.Keeps u := by
  cases h with
  | single first last => exact hd _ _ _ _ first hr
  | sequence first comma more =>
    obtain ⟨he, hrest⟩ := List.forall_mem_cons.mp (isUnkeyed_ofList.mp (hr.first rfl))
    have hfirst : s.Keeps _ := hd _ _ _ _ first he
    exact hfirst.trans (hd _ _ _ _ more hrest)

theorem keeps_expression {noIn : Bool} {e : Expression} (h : expression d noIn s = .ok e u)
    (he : e.IsUnkeyed) : s.Keeps u := by
  obtain ⟨after, h⟩ := of_expression h
  exact keeps_expressionWith hd h he

theorem keeps_commaOperands {noIn owned : Bool} {pending : Pending}
    {r : List Expression × Pending} (h : CommaOperands d noIn owned pending s r u)
    (hr : ∀ x ∈ r.1, x.IsUnkeyed) : s.Keeps u := by
  cases h with
  | done => exact .refl s
  | operand comma first more =>
    obtain ⟨he, hrest⟩ := List.forall_mem_cons.mp hr
    have hfirst : ParseState.Keeps _ _ := hd _ _ _ _ first he
    exact ((keeps_of_takes comma rfl).trans hfirst).trans (hd _ _ _ _ more hrest)

theorem keeps_yieldExpression {noIn : Bool} {e : Expression} (kind : s.kind = .name)
    (h : YieldExpression d noIn s e u) (he : e.IsUnkeyed) : s.Keeps u := by
  cases h with
  | alone word => exact keeps_of_takes ⟨kind, word⟩ rfl
  | argument word star argument =>
    have hvalue := keeps_value hd argument ((he.first rfl).first rfl)
    exact ((keeps_of_takes ⟨kind, word⟩ rfl).trans (keeps_of_eats star rfl)).trans hvalue

theorem keeps_unaryExpression {e : Expression} (kind : s.kind.isUnary = true)
    (h : UnaryExpression d s e u) (he : e.IsUnkeyed) : s.Keeps u := by
  have hword {t : ParseState} (word : advance s = .ok () t) : s.Keeps t :=
    keeps_of_takes ⟨rfl, word⟩ (movesStack_of_isUnary kind)
  cases h with
  | update word argument_ok =>
    exact (hword word).trans (keeps_operand hd argument_ok (he.first rfl))
  | unary word argument_ok =>
    exact (hword word).trans (keeps_operand hd argument_ok (he.first rfl))

omit hd in
theorem keeps_trailingUpdate {start : Place} {e r : Expression}
    (h : TrailingUpdate start e s r u) (hr : r.IsUnkeyed) : e.IsUnkeyed ∧ s.Keeps u := by
  cases h with
  | bare => exact ⟨hr, .refl s⟩
  | update kind _ _ word => exact ⟨hr.first rfl, keeps_of_takes ⟨kind, word⟩ rfl⟩

theorem keeps_leftHandSide {pending : Pending} {r : Expression × Pending}
    (h : LeftHandSide d pending s r u) (hr : r.1.IsUnkeyed) : s.Keeps u := by
  cases h with
  | atom atom_ok => exact hd _ _ _ _ atom_ok hr
  | suffixed atom_ok more =>
    obtain ⟨hbase, hkeeps⟩ := hd _ _ _ _ more hr
    have hatom : s.Keeps _ := hd _ _ _ _ atom_ok hbase
    exact hatom.trans hkeeps

theorem keeps_unary {pending : Pending} {r : Expression × Pending} (h : Unary d pending s r u)
    (hr : r.1.IsUnkeyed) : s.Keeps u := by
  cases h with
  | operator kind unary_ok => exact keeps_unaryExpression hd kind unary_ok hr
  | pending left_ok => exact keeps_leftHandSide hd left_ok hr
  | trailing left_ok more =>
    obtain ⟨he, hkeeps⟩ := keeps_trailingUpdate more hr
    exact (keeps_leftHandSide hd left_ok he).trans hkeeps

theorem keeps_operators {left : Expression} {start : Place} {floor : Nat} {noIn : Bool}
    {r : Expression} (h : Operators d left start floor noIn s r u) (hr : r.IsUnkeyed) :
    left.IsUnkeyed ∧ s.Keeps u := by
  cases h with
  | done => exact ⟨hr, .refl s⟩
  | operator kind _ _ word operand_ok right_ok joined more =>
    obtain ⟨he, hmore⟩ := hd _ _ _ _ more hr
    obtain ⟨hleft, hright⟩ : left.IsUnkeyed ∧ _ := by
      cases joined with
      | logical => exact ⟨he.first rfl, he.second rfl⟩
      | binary => exact ⟨he.first rfl, he.second rfl⟩
    obtain ⟨hoperand, hrest⟩ := hd _ _ _ _ right_ok hright
    have hword := keeps_of_takes ⟨rfl, word⟩ (movesStack_of_binaryStrength? kind)
    exact ⟨hleft, ((hword.trans (keeps_operand hd operand_ok hoperand)).trans hrest).trans hmore⟩

theorem keeps_binary {noIn : Bool} {pending : Pending} {r : Expression × Pending}
    (h : Binary d noIn pending s r u) (hr : r.1.IsUnkeyed) : s.Keeps u := by
  cases h with
  | operand first => exact hd _ _ _ _ first hr
  | operators first more =>
    obtain ⟨he, hkeeps⟩ := hd _ _ _ _ more hr
    have hfirst : s.Keeps _ := hd _ _ _ _ first he
    exact hfirst.trans hkeeps

theorem keeps_conditional {noIn : Bool} {pending : Pending} {r : Expression × Pending}
    (h : Conditional d noIn pending s r u) (hr : r.1.IsUnkeyed) : s.Keeps u := by
  cases h with
  | plain test_ok => exact keeps_binary hd test_ok hr
  | choice test_ok question consequent_ok colon alternate_ok =>
    have htest := keeps_binary hd test_ok (hr.first rfl)
    have hconsequent := keeps_value hd consequent_ok (hr.second rfl)
    have halternate := keeps_value hd alternate_ok (hr.third rfl)
    exact (((htest.trans (keeps_of_takes question rfl)).trans hconsequent).trans
      (keeps_of_takes colon rfl)).trans halternate

theorem keeps_assignment {noIn owned : Bool} {outer : Pending} {r : Expression × Pending}
    (h : Assignment d noIn owned outer s r u) (hr : r.1.IsUnkeyed) : s.Keeps u := by
  cases h with
  | yield scope word yield_ok =>
    exact keeps_yieldExpression hd (ParseState.kind_of_isWord word) yield_ok hr
  | plain left_ok =>
    have hkeeps := keeps_conditional hd (of_conditional left_ok) hr
    exact (keeps_of_stream_eq s.stream_markArrow).trans hkeeps
  | assign left_ok kind spelling simple target_ok legal word value_ok =>
    have hleft := isUnkeyed_of_converts (converts_of_toPattern target_ok) (hr.first rfl)
    have hkeeps := keeps_conditional hd (of_conditional left_ok) hleft
    have hword := keeps_of_takes ⟨rfl, word⟩ (movesStack_of_isAssignment kind)
    have hvalue := keeps_value hd value_ok (hr.second rfl)
    exact (((keeps_of_stream_eq s.stream_markArrow).trans hkeeps).trans hword).trans hvalue

end Rules

end EcmaTree.Balance
