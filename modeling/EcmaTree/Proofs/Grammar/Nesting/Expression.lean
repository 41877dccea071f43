import EcmaTree.Proofs.Grammar.Nesting.Basic

/-!
# Spans of targets, functions and operators

The span of a node goes from a token that has been at the front to the end of the last token.
Where the first token lies before what the rule itself reads, as with an operator and its left
operand, the rule is told where it starts, and what has been read from there comes along.
-/

namespace EcmaTree.Nesting

open EcmaTree.Parser EcmaTree.Grammar EcmaTree.Reading Node TokenStream

variable {text : List Char} {d : Descent} {s u first : ParseState}

theorem covers_namePattern {liberal : Bool} {id : Identifier}
    (h : identifier liberal s = .ok id u) :
    Covers text s.stream u.stream [.node (.namePattern id)] :=
  .of_fragment ⟨trivial, rfl⟩ rfl rfl (covers_identifier h)

theorem covers_restOfBinding {c : Category} {n : Node c} {span : Span} {argument : Pattern}
    (hk : s.kind = .ellipsis) (h : restOfBinding s = .ok (span, argument) u)
    (hn : n.IsPlain) (hspan : n.span = span) (hf : n.fragments = [.node argument]) :
    Covers text s.stream u.stream [.node n] := by
  obtain ⟨s₁, id, word, name_ok, he⟩ := of_restOfBinding h
  cases he
  refine node_of_word hn hspan word (hk ▸ rfl) ?_
  rw [hf]
  exact covers_namePattern name_ok

section Rules

/- The answers that a rule depends on are nested where they have been read. -/
variable (hd : ∀ g s r u, d g s = .ok r u → g.Nests text s r u)

include hd

theorem covers_value {noIn : Bool} {e : Expression} (h : d.value noIn s = .ok e u) :
    Covers text s.stream u.stream [.node e] := by
  obtain ⟨after, h⟩ := of_value h
  exact hd _ _ _ _ h

theorem covers_operand {e : Expression} (h : d.operand s = .ok e u) :
    Covers text s.stream u.stream [.node e] :=
  hd _ _ _ _ (of_operand h)

theorem covers_propertyName {key : Key} (h : PropertyName d s key u) :
    Covers text s.stream u.stream [.node key] := by
  cases h with
  | computed opening key_ok closing =>
    rename_i s₁ s₂ key
    have hvalue := covers_value hd key_ok
    have hkey := hvalue.wrap (n := .computedKey key) ⟨trivial, rfl⟩ trivial rfl rfl
    exact (covers_of_takes opening).append (hkey.append (covers_of_takes closing))
  | literal key_ok => exact .of_fragment ⟨trivial, rfl⟩ rfl rfl (covers_literal key_ok)
  | name key_ok => exact .of_fragment ⟨trivial, rfl⟩ rfl rfl (covers_identifier key_ok)

theorem covers_bindingAtom {p : Pattern} (h : BindingAtom d s p u) :
    Covers text s.stream u.stream [.node p] := by
  cases h with
  | name name_ok => exact covers_namePattern name_ok
  | array opening items => exact node_of_takes ⟨trivial, rfl⟩ rfl opening rfl (hd _ _ _ _ items)
  | object opening items => exact node_of_takes ⟨trivial, rfl⟩ rfl opening rfl (hd _ _ _ _ items)

theorem covers_withDefault {start : Place} {target p : Pattern} (hstart : start = first.place)
    (ht : Covers text first.stream s.stream [.node target]) (h : WithDefault d start target s p u) :
    Covers text first.stream u.stream [.node p] := by
  cases h with
  | given eq value_ok =>
    refine node_of_first ⟨trivial, rfl⟩ rfl hstart rfl trivial ?_
    exact ht.append ((covers_of_takes eq).append (covers_value hd value_ok))
  | bare => exact ht

theorem skips_withDefault {start : Place} {target p : Pattern}
    (h : WithDefault d start target s p u) : Covers text s.stream u.stream [] := by
  cases h with
  | given eq value_ok => exact (covers_of_takes eq).append (covers_value hd value_ok).forget
  | bare => exact .refl

theorem covers_bindingElement {p : Pattern} (h : bindingElement d s = .ok p u) :
    Covers text s.stream u.stream [.node p] := by
  obtain ⟨target, s₁, hatom, hdefault⟩ := of_bindingElement h
  exact covers_withDefault hd rfl (covers_bindingAtom hd hatom) hdefault

theorem covers_targets {stop : TokenKind} {holes trailingComma isFirst : Bool}
    {r : List (Option Pattern)} (h : Targets d stop holes trailingComma isFirst s r u) :
    Covers text s.stream u.stream [.node (.ofHoleyList r)] := by
  cases h with
  | closed closing => exact (covers_of_takes closing).append .nil
  | trailing comma closing =>
    exact (covers_of_separator comma).append ((covers_of_takes closing).append .nil)
  | hole comma next more =>
    exact (covers_of_separator comma).append (.cons .absent (hd _ _ _ _ more))
  | rest comma dots rest_ok closing =>
    rename_i s₁ span argument s₂
    have hrest : Covers text s₁.stream s₂.stream [.node (.restPattern span argument)] :=
      covers_restOfBinding dots rest_ok ⟨trivial, rfl⟩ rfl rfl
    exact (covers_of_separator comma).append
      ((Covers.single hrest.present).append (covers_of_takes closing))
  | item comma item_ok more =>
    have hitem := covers_bindingElement hd item_ok
    exact (covers_of_separator comma).append (.cons hitem.present (hd _ _ _ _ more))

theorem covers_patternProperty {m : PatternMember} (h : PatternProperty d s m u) :
    Covers text s.stream u.stream [.node m] := by
  cases h with
  | named key_ok colon value_ok =>
    rename_i key s₁ s₂ value
    have hkey := covers_propertyName hd key_ok
    have hvalue := covers_bindingElement hd value_ok
    refine node_of_first ⟨trivial, rfl⟩ rfl rfl rfl trivial ?_
    exact hkey.append ((covers_of_takes colon).append hvalue)
  | @shorthand id s₁ value _ key_ok value_ok =>
    have hkey := covers_propertyName hd key_ok
    have hname : Covers text s.stream s₁.stream [.node (.namePattern id)] :=
      .of_fragment ⟨trivial, rfl⟩ rfl rfl (hkey.to_written trivial rfl rfl)
    have hvalue := covers_withDefault hd rfl hname value_ok
    exact covers_shorthand trivial rfl rfl rfl (hkey.append (skips_withDefault hd value_ok)) hvalue

theorem covers_patternMembers {isFirst : Bool} {r : List PatternMember}
    (h : PatternMembers d isFirst s r u) :
    Covers text s.stream u.stream [.node (.ofList r)] := by
  cases h with
  | closed closing => exact (covers_of_takes closing).append .nil
  | trailing comma closing =>
    exact (covers_of_separator comma).append ((covers_of_takes closing).append .nil)
  | rest comma dots rest_ok closing =>
    rename_i s₁ span argument s₂
    have hrest : Covers text s₁.stream s₂.stream [.node (.restMember span argument)] :=
      covers_restOfBinding dots rest_ok ⟨trivial, rfl⟩ rfl rfl
    exact (covers_of_separator comma).append
      ((Covers.single hrest).append (covers_of_takes closing))
  | item comma item_ok more =>
    have hitem := covers_patternProperty hd item_ok
    exact (covers_of_separator comma).append (hitem.cons (hd _ _ _ _ more))

theorem covers_block {directives : Bool} {b : Block} (h : block d directives s = .ok b u) :
    Covers text s.stream u.stream [.node b] := by
  obtain ⟨s₁, body, opening, hbody, rfl⟩ := of_block h
  exact node_of_takes ⟨trivial, rfl⟩ rfl opening rfl (hd _ _ _ _ hbody)

theorem covers_parameters {params : List Pattern} (h : parameters d s = .ok params u) :
    Covers text s.stream u.stream [.node (.ofList params)] := by
  obtain ⟨targets, ht, rfl⟩ := of_parameters h
  exact Covers.reduceOption (hd _ _ _ _ ht)

omit hd in
/-- The scope in which a body is read does not matter for where it lies. -/
theorem covers_functionBody {c : Category} {id : Option Identifier} {params : List Pattern}
    {generator isArrow : Bool} {body : Parser (Node c)} {b : Node c}
    (hbody : ∀ {t t' : ParseState}, body t = .ok b t' →
      Covers text t.stream t'.stream [.node b])
    (h : FunctionBody id params generator isArrow body s b u) :
    Covers text s.stream u.stream [.node b] := by
  obtain ⟨body_ok, -, -⟩ := h
  have hcovers := hbody body_ok
  exact hcovers

/-- The name, the parameters and the body of a function after its keyword. -/
theorem covers_function {start : Place} {isDeclaration : Bool} {f : FunctionParts}
    (h : Function d start isDeclaration s f u) :
    Covers text s.stream u.stream f.toExpression.fragments ∧ f.span = u.spanFrom start := by
  cases h with
  | intro star name opening params_ok body_ok =>
    rename_i s₁ id s₂ s₃ params s₄ body
    have hname : Covers text s₁.stream s₂.stream
        (id.toList.map fun id => .written id.span id.name) := by
      cases name with
      | named name_ok => exact covers_identifier name_ok
      | anonymous => exact .refl
    have hparams := covers_parameters hd params_ok
    have hbody := covers_functionBody (fun hb => covers_block hd hb) body_ok
    have hrest := (covers_of_takes opening).append (hparams.append hbody)
    exact ⟨(covers_of_eats star).append (hname.append hrest), rfl⟩

theorem covers_method {generator : Bool} {f : FunctionParts} (h : method d generator s = .ok f u) :
    Covers text s.stream u.stream [.node f.toExpression] := by
  obtain ⟨s₁, s₂, params, body, opening, params_ok, body_ok, rfl⟩ := of_method h
  have hparams := covers_parameters hd params_ok
  have hbody := covers_functionBody (fun hb => covers_block hd hb) body_ok
  exact node_of_takes ⟨trivial, rfl⟩ rfl opening rfl (hparams.append hbody)

theorem covers_arrowBody {b : Body} (h : arrowBody d s = .ok b u) :
    Covers text s.stream u.stream [.node b] := by
  cases of_arrowBody h with
  | block block_ok => exact (covers_block hd block_ok).wrap ⟨trivial, rfl⟩ trivial rfl rfl
  | concise value_ok => exact (covers_value hd value_ok).wrap ⟨trivial, rfl⟩ trivial rfl rfl

theorem covers_arrow {start : Place} {params : List Pattern} {e : Expression}
    (hstart : start = first.place)
    (hparams : Covers text first.stream s.stream [.node (.ofList params)])
    (h : arrow d start params s = .ok e u) : Covers text first.stream u.stream [.node e] := by
  obtain ⟨s₁, body, word, body_ok, rfl⟩ := of_arrow h
  have hbody := covers_functionBody (fun hb => covers_arrowBody hd hb) body_ok
  refine node_of_part ⟨trivial, rfl⟩ rfl hstart
    (spansOf_ne_nil (n := body) trivial (List.mem_cons_of_mem _ List.mem_cons_self)) ?_
  exact hparams.append ((covers_of_takes word).append hbody)

theorem covers_expressionWith {noIn owned : Bool} {pending : Pending} {r : Expression × Pending}
    (h : ExpressionWith d noIn owned pending s r u) :
    Covers text s.stream u.stream [.node r.1] := by
  cases h with
  | single first_ok => exact hd _ _ _ _ first_ok
  | sequence first_ok comma more =>
    rename_i e between s₁ rest after
    have he : Covers text s.stream s₁.stream [.node e] := hd _ _ _ _ first_ok
    have hlist := he.cons (hd _ _ _ _ more)
    exact node_of_part ⟨trivial, rfl⟩ rfl rfl (spansOf_cons_ne_nil trivial) hlist

theorem covers_expression {noIn : Bool} {e : Expression} (h : expression d noIn s = .ok e u) :
    Covers text s.stream u.stream [.node e] := by
  obtain ⟨after, h⟩ := of_expression h
  exact covers_expressionWith hd h

theorem covers_commaOperands {noIn owned : Bool} {pending : Pending}
    {r : List Expression × Pending} (h : CommaOperands d noIn owned pending s r u) :
    Covers text s.stream u.stream [.node (.ofList r.1)] := by
  cases h with
  | done => exact .nil
  | operand comma first_ok more =>
    exact (covers_of_takes comma).append (Covers.cons (hd _ _ _ _ first_ok) (hd _ _ _ _ more))

theorem covers_yieldExpression {noIn : Bool} {e : Expression} (hk : s.kind = .name)
    (h : YieldExpression d noIn s e u) : Covers text s.stream u.stream [.node e] := by
  cases h with
  | alone word => exact node_of_word ⟨trivial, rfl⟩ rfl word (hk ▸ rfl) .absent
  | argument word star argument =>
    refine node_of_word ⟨trivial, rfl⟩ rfl word (hk ▸ rfl) ?_
    exact (covers_of_eats star).append (covers_value hd argument).present

theorem covers_unaryExpression {e : Expression} (hk : s.kind.isUnary = true)
    (h : UnaryExpression d s e u) : Covers text s.stream u.stream [.node e] := by
  have wide : isWide s.kind = true := by
    cases hs : s.kind <;> first | rfl | simp [hs, TokenKind.isUnary] at hk
  cases h with
  | update word argument_ok | unary word argument_ok =>
    exact node_of_word ⟨trivial, rfl⟩ rfl word wide (covers_operand hd argument_ok)

omit hd in
theorem covers_trailingUpdate {start : Place} {e r : Expression} (hstart : start = first.place)
    (he : Covers text first.stream s.stream [.node e]) (h : TrailingUpdate start e s r u) :
    Covers text first.stream u.stream [.node r] := by
  cases h with
  | bare => exact he
  | update kind simple spelling word =>
    refine node_of_first ⟨trivial, rfl⟩ rfl hstart rfl trivial ?_
    exact he.append (covers_of_advance word)

theorem covers_leftHandSide {pending : Pending} {r : Expression × Pending}
    (h : LeftHandSide d pending s r u) : Covers text s.stream u.stream [.node r.1] := by
  cases h with
  | atom atom_ok ends => exact hd _ _ _ _ atom_ok
  | suffixed atom_ok more => exact hd _ _ _ _ more s rfl (hd _ _ _ _ atom_ok)

theorem covers_unary {pending : Pending} {r : Expression × Pending} (h : Unary d pending s r u) :
    Covers text s.stream u.stream [.node r.1] := by
  cases h with
  | operator kind unary_ok => exact covers_unaryExpression hd kind unary_ok
  | pending left_ok => exact covers_leftHandSide hd left_ok
  | trailing left_ok more => exact covers_trailingUpdate rfl (covers_leftHandSide hd left_ok) more

theorem covers_operators {left : Expression} {start : Place} {floor : Nat} {noIn : Bool}
    {r : Expression} (hstart : start = first.place)
    (hl : Covers text first.stream s.stream [.node left])
    (h : Operators d left start floor noIn s r u) :
    Covers text first.stream u.stream [.node r] := by
  cases h with
  | done => exact hl
  | operator kind tight notIn word operand_ok right_ok joined more =>
    rename_i strength s₁ operand s₂ right s₃ e
    have hright : Covers text s₁.stream s₃.stream [.node right] :=
      hd _ _ _ _ right_ok s₁ rfl (covers_operand hd operand_ok)
    have hboth := hl.append ((covers_of_advance word).append hright)
    refine hd _ _ _ _ more first hstart ?_
    cases joined with
    | logical => exact node_of_first ⟨trivial, rfl⟩ rfl hstart rfl trivial hboth
    | binary => exact node_of_first ⟨trivial, rfl⟩ rfl hstart rfl trivial hboth

theorem covers_binary {noIn : Bool} {pending : Pending} {r : Expression × Pending}
    (h : Binary d noIn pending s r u) : Covers text s.stream u.stream [.node r.1] := by
  cases h with
  | operand first_ok ends => exact hd _ _ _ _ first_ok
  | operators first_ok more => exact hd _ _ _ _ more s rfl (hd _ _ _ _ first_ok)

theorem covers_conditional {noIn : Bool} {pending : Pending} {r : Expression × Pending}
    (h : Conditional d noIn pending s r u) : Covers text s.stream u.stream [.node r.1] := by
  cases h with
  | plain test_ok ends => exact covers_binary hd test_ok
  | choice test_ok question consequent_ok colon alternate_ok =>
    rename_i test s₁ s₂ consequent s₃ s₄ alternate
    have htest := covers_binary hd test_ok
    have hconsequent := covers_value hd consequent_ok
    have halternate := covers_value hd alternate_ok
    refine node_of_first ⟨trivial, rfl⟩ rfl rfl rfl trivial ?_
    exact htest.append ((covers_of_takes question).append
      (hconsequent.append ((covers_of_takes colon).append halternate)))

omit hd in
/-- A checked pattern lies where the expression lies from which it has been converted. -/
theorem covers_toPattern {e : Expression} {p : Pattern} {isBinding strict : Bool}
    {names : Option (List String)} (h : e.toPattern isBinding = .ok p)
    (legal : (Pattern.check strict isBinding names p).1 = .ok ())
    (he : Covers text first.stream s.stream [.node e]) :
    Covers text first.stream s.stream [.node p] := by
  have hc := converts_of_toPattern h
  exact he.exchange hc.outline_eq (hc.allNested (isSpreadless_of_check legal))

theorem covers_assignment {noIn owned : Bool} {outer : Pending} {r : Expression × Pending}
    (h : Assignment d noIn owned outer s r u) :
    Covers text s.stream u.stream [.node r.1] := by
  cases h with
  | yield scope word yield_ok =>
    simp only [ParseState.isWord, Bool.and_eq_true, beq_iff_eq] at word
    exact covers_yieldExpression hd word.1 yield_ok
  | plain left_ok last settled =>
    have he := covers_conditional hd (of_conditional left_ok)
    rwa [ParseState.stream_markArrow] at he
  | assign left_ok kind spelling simple target_ok legal word value_ok =>
    rename_i left pending s₁ operator target s₂ value
    have hl := covers_conditional hd (of_conditional left_ok)
    rw [ParseState.stream_markArrow] at hl
    have htarget := covers_toPattern target_ok legal hl
    refine node_of_first ⟨trivial, rfl⟩ rfl rfl rfl trivial ?_
    exact htarget.append ((covers_of_advance word).append (covers_value hd value_ok))

end Rules

end EcmaTree.Nesting
