import EcmaTree.Proofs.Grammar.Nesting.Expression

/-!
# Spans of operands

Parentheses are no nodes: what has been read between them lies within the stretch from the
opening one to the closing one. Accessors and shorthand properties are read by their names
first, and a template has its chunks between its expressions.
-/

namespace EcmaTree.Nesting

open EcmaTree.Parser EcmaTree.Grammar EcmaTree.Reading Node TokenStream

variable {text : List Char} {d : Descent} {s u first : ParseState}

theorem outline_expressionsOf_sublist (items : List Element) :
    (ofList (expressionsOf items)).outline.Sublist (ofList items).outline := by
  induction items with
  | nil => exact .refl _
  | cons x items ih =>
    cases x with
    | item value =>
      rw [outline_ofList, outline_ofList] at ih ⊢
      change (value.outline ++ _).Sublist ([value.span] ++ _)
      rw [outline_of_isPlaced (c := .expression) trivial]
      exact ih.append_left _
    | spread | rest => exact ih.trans (List.sublist_append_right _ _)

/-- The expressions of a list lie where the list lies. -/
theorem covers_expressionsOf {items : List Element}
    (h : Covers text first.stream s.stream [.node (.ofList items)]) :
    Covers text first.stream s.stream [.node (.ofList (expressionsOf items))] := by
  have hspans := outline_expressionsOf_sublist items
  refine h.of_sublist (by simpa [spansOf, Fragment.spans] using hspans) fun sound => ?_
  refine List.forall_mem_singleton.mpr (allNested_ofList.mpr fun e he => ?_)
  have hall := allNested_ofList.mp (sound _ List.mem_cons_self)
  obtain ⟨x, hx, hvalue⟩ := List.mem_filterMap.mp he
  cases x with
  | item value =>
    cases hvalue
    exact (hall _ hx).child List.mem_cons_self
  | spread | rest => cases hvalue

/-- The only item of a list lies where the list lies. -/
theorem covers_of_single {c : Category} {n : Node c}
    (h : Covers text first.stream s.stream [.node (.ofList [n])]) :
    Covers text first.stream s.stream [.node n] := by
  refine h.exchange ?_ fun hall => allNested_ofList.mp hall n List.mem_cons_self
  exact (List.append_nil _).symm

/-- The parameters that a list of expressions is converted into lie where the list lies. -/
theorem covers_patternsOfElements {items : List Element} {ps : List (Option Pattern)}
    {isBinding strict : Bool} {names : Option (List String)}
    (h : patternsOfElements (items.map some) isBinding = .ok ps)
    (legal : Pattern.checkAll strict isBinding names ps.reduceOption = .ok ())
    (hitems : Covers text first.stream s.stream [.node (.ofList items)]) :
    Covers text first.stream s.stream [.node (.ofList ps.reduceOption)] := by
  have hc := converts_of_patternsOfElements h
  have hlist : Covers text first.stream s.stream [.node (.ofHoleyList (items.map some))] := by
    refine hitems.exchange ?_ fun hall => allNested_ofHoleyList.mpr fun x hx => ?_
    · rw [outline_ofHoleyList, outline_ofList, List.reduceOption,
        List.filterMap_map]
      simp
    · exact allNested_ofList.mp hall x (by simpa using hx)
  exact Covers.reduceOption (hlist.exchange hc.outline_eq
    (hc.allNested (isSpreadless_ofHoleyList (isSpreadless_of_checkAll legal))))

/-- A chunk of a template together with the token behind it. -/
theorem covers_chunk {t : ParseState} {raw : String} (hk : s.kind = .template)
    (hvalue : s.stream.token.value = .template raw) (chunk : advance s = .ok () t)
    (next : advance t = .ok () u) (wide : isWide t.kind = true) :
    Covers text s.stream u.stream [.written (t.spanFrom s.place) raw] := by
  intro hs
  have ht := covers_of_advance chunk hs
  have hu := covers_of_advance next ht.fit
  have hspan := spanFrom_of_advance hs chunk
  have hended := ended_of_advance chunk
  have hgap := ht.fit.ended_le
  have hlt := front_lt_of_advance ht.fit wide next
  have hle := hs.placed.start_le_stop
  have hboth : Stretch text s.stream u.stream [] :=
    ((covers_of_advance chunk).append (covers_of_advance next)) hs
  rw [hspan]
  refine hboth.only rfl ⟨Nat.le_refl _, hle, by omega, by omega⟩ ?_
  change slice? text _ _ = some raw.toList
  obtain ⟨hslice, hspells⟩ := hs.covered.token
  unfold ParseState.kind at hk
  rw [hk] at hspells
  cases hvalue.symm.trans hspells
  rw [hslice, String.toList_ofList]

section Rules

/- The answers that a rule depends on are nested where they have been read. -/
variable (hd : ∀ g s r u, d g s = .ok r u → g.Nests text s r u)

include hd

theorem covers_callArguments {arguments : Node (.list .element)}
    (h : suffixes.callArguments d s = .ok arguments u) :
    Covers text s.stream u.stream [.node arguments] := by
  obtain ⟨elements, hitems, rfl⟩ := of_callArguments h
  exact Covers.reduceOption (hd _ _ _ _ hitems)

theorem covers_suffixes {base : Expression} {start : Place} {noCalls : Bool} {r : Expression}
    (hstart : start = first.place) (hb : Covers text first.stream s.stream [.node base])
    (h : Suffixes d base start noCalls s r u) :
    Covers text first.stream u.stream [.node r] := by
  cases h with
  | done => exact hb
  | name dot name_ok more =>
    rename_i s₁ name s₂
    have hname : Covers text s₁.stream s₂.stream [.node (.identifier name)] :=
      .of_fragment ⟨trivial, rfl⟩ rfl rfl (covers_identifier name_ok)
    refine hd _ _ _ _ more first hstart (node_of_first ⟨trivial, rfl⟩ rfl hstart rfl trivial ?_)
    exact hb.append ((covers_of_takes dot).append hname)
  | index opening property_ok closing more =>
    have hproperty := covers_expression hd property_ok
    refine hd _ _ _ _ more first hstart (node_of_first ⟨trivial, rfl⟩ rfl hstart rfl trivial ?_)
    exact hb.append ((covers_of_takes opening).append (hproperty.append (covers_of_takes closing)))
  | call allowed opening arguments_ok more =>
    have harguments := covers_callArguments hd arguments_ok
    refine hd _ _ _ _ more first hstart (node_of_first ⟨trivial, rfl⟩ rfl hstart rfl trivial ?_)
    exact hb.append ((covers_of_takes opening).append harguments)

theorem covers_listElement {holes : Bool} {pending : Pending} {r : Option Element × Pending}
    (h : ListElement d holes pending s r u) :
    Covers text s.stream u.stream [.node (.ofOption r.1)] := by
  cases h with
  | hole => exact .absent
  | spread dots argument_ok =>
    exact Covers.present (node_of_takes ⟨trivial, rfl⟩ rfl dots rfl (hd _ _ _ _ argument_ok))
  | item item_ok =>
    rename_i e after _ _
    have he : Covers text s.stream u.stream [.node e] := hd _ _ _ _ item_ok
    exact Covers.present (he.wrap ⟨trivial, rfl⟩ trivial rfl rfl)

theorem covers_elements {stop : TokenKind} {trailingComma holes isFirst : Bool} {pending : Pending}
    {r : List (Option Element) × Pending}
    (h : Elements d stop trailingComma holes isFirst pending s r u) :
    Covers text s.stream u.stream [.node (.ofHoleyList r.1)] := by
  cases h with
  | closed closing => exact (covers_of_takes closing).append .nil
  | trailing comma closing =>
    exact (covers_of_separator comma).append ((covers_of_takes closing).append .nil)
  | item comma item_ok more =>
    have helement := covers_listElement hd item_ok
    exact (covers_of_separator comma).append (helement.cons (hd _ _ _ _ more))

theorem covers_parenthesized {isFirst : Bool} {pending : Pending} {r : List Element × Pending}
    (h : Parenthesized d isFirst pending s r u) :
    Covers text s.stream u.stream [.node (.ofList r.1)] := by
  cases h with
  | done => exact .nil
  | rest comma dots rest_ok =>
    rename_i s₁ span argument
    have hrest : Covers text s₁.stream u.stream [.node (.rest span argument)] :=
      covers_restOfBinding dots rest_ok ⟨trivial, rfl⟩ rfl rfl
    exact (covers_of_separator comma).append (Covers.single hrest)
  | item comma item_ok more =>
    rename_i s₁ value between s₂ rest after _ _
    have he : Covers text s₁.stream s₂.stream [.node value] := hd _ _ _ _ item_ok
    have hitem := he.wrap (n := .item value) ⟨trivial, rfl⟩ trivial rfl rfl
    exact (covers_of_separator comma).append (hitem.cons (hd _ _ _ _ more))

theorem covers_parenthesizedExpression {start : Place} {canBeArrow : Bool} {e : Expression}
    (hstart : start = s.place) (h : ParenthesizedExpression d start canBeArrow s e u) :
    Covers text s.stream u.stream [.node e] := by
  cases h with
  | arrow allowed opening items_ok closing patterns_ok legal arrow_ok =>
    have hparams := covers_patternsOfElements patterns_ok legal (hd _ _ _ _ items_ok)
    have hlist := (covers_of_takes opening).append (hparams.append (covers_of_takes closing))
    exact covers_arrow hd hstart hlist arrow_ok
  | single opening items_ok closing no_rest one =>
    have hvalues := covers_expressionsOf (hd _ _ _ _ items_ok)
    rw [one] at hvalues
    exact (covers_of_takes opening).append
      ((covers_of_single hvalues).append (covers_of_takes closing))
  | sequence opening items_ok closing nonempty no_rest many =>
    rename_i s₁ items s₂
    have hitems : Covers text s₁.stream s₂.stream [.node (.ofList items)] := hd _ _ _ _ items_ok
    have hne : spansOf [.node (.ofList items)] ≠ [] := by
      obtain ⟨x, rest, rfl⟩ := List.exists_cons_of_ne_nil nonempty
      exact spansOf_cons_ne_nil trivial
    have hnode := Covers.node
      (n := .sequence (Span.closing s₁.place (s₂.lastEnd s₁.place)) (.ofList (expressionsOf items)))
      ⟨trivial, rfl⟩ ?_ ?_ (fun _ hs => (hitems hs).front_lt hne) (covers_expressionsOf hitems)
    · exact (covers_of_takes opening).append (hnode.append (covers_of_takes closing))
    · exact congrArg Place.offset (Span.start_closing _ _)
    · exact stop_closing_lastEnd

theorem covers_parenthesis {canBeArrow : Bool} {e : Expression}
    (h : Parenthesis d canBeArrow s e u) : Covers text s.stream u.stream [.node e] := by
  cases h with
  | arrow allowed params_ok arrow_ok =>
    obtain ⟨s₁, opening, hparams, -, -⟩ := of_arrowParameters params_ok
    have hlist := (covers_of_takes opening).append (covers_parameters hd hparams)
    exact covers_arrow hd rfl hlist arrow_ok
  | list no_params list_ok => exact covers_parenthesizedExpression hd rfl list_ok

theorem covers_nameOrArrow {canBeArrow : Bool} {e : Expression}
    (h : NameOrArrow d canBeArrow s e u) : Covers text s.stream u.stream [.node e] := by
  cases h with
  | name name_ok => exact .of_fragment ⟨trivial, rfl⟩ rfl rfl (covers_identifier name_ok)
  | arrow allowed name_ok arrow_ok =>
    exact covers_arrow hd rfl (Covers.single (covers_namePattern name_ok)) arrow_ok

theorem covers_newExpression {e : Expression} (hk : s.kind = .keyword .new)
    (h : newExpression d s = .ok e u) : Covers text s.stream u.stream [.node e] := by
  obtain ⟨s₁, atom, s₂, callee, s₃, arguments, word, atom_ok, callee_ok, harguments, rfl⟩ :=
    of_newExpression h
  have hcallee : Covers text s₁.stream s₃.stream [.node callee] :=
    hd _ _ _ _ callee_ok s₁ rfl (hd _ _ _ _ atom_ok)
  refine node_of_word ⟨trivial, rfl⟩ rfl word (hk ▸ rfl) ?_
  cases harguments with
  | none => exact hcallee.append .nil
  | given opening arguments_ok =>
    exact hcallee.append
      ((covers_of_takes opening).append (covers_callArguments hd arguments_ok))

theorem covers_chunks {r : List TemplateElement × List Expression} (h : Chunks d s r u)
    {v : ParseState} (next : advance u = .ok () v) :
    Covers text s.stream v.stream
      (weave (r.1.map fun chunk => .written chunk.span chunk.raw) (r.2.map fun e => .node e)) := by
  cases h with
  | last kind value chunk closing => exact covers_chunk kind value chunk next (closing ▸ rfl)
  | more kind value chunk opening value_ok closing more =>
    rename_i raw s₁ s₂ e s₃ s₄ quasis values
    have hchunk : Covers text s.stream s₂.stream [.written (s₁.spanFrom s.place) raw] :=
      covers_chunk kind value chunk opening.2 (opening.1 ▸ rfl)
    have hvalue := covers_expression hd value_ok
    exact hchunk.append (hvalue.append ((covers_of_takes closing).append (hd _ _ _ _ more v next)))

theorem covers_template {e : Expression} (h : template d s = .ok e u) :
    Covers text s.stream u.stream [.node e] := by
  obtain ⟨s₁, quasis, values, s₂, opening, chunks_ok, closing, rfl⟩ := of_template h
  refine node_of_takes ⟨trivial, rfl⟩ rfl opening rfl ?_
  change Covers text s₁.stream u.stream (weave _ ((ofList values).toList.map _))
  rw [toList_ofList]
  exact hd _ _ _ _ chunks_ok u closing

theorem covers_shorthandProperty {start : Place} {id : Identifier} {pending : Pending}
    {r : Member × Pending} (hstart : start = first.place)
    (hkey : Covers text first.stream s.stream [.node (.nameKey id)])
    (h : ShorthandProperty d start id pending s r u) :
    Covers text first.stream u.stream [.node r.1] := by
  subst hstart
  have hname := hkey.to_written trivial rfl rfl
  cases h with
  | bare =>
    exact covers_shorthand trivial rfl rfl rfl hkey (.of_fragment ⟨trivial, rfl⟩ rfl rfl hname)
  | default eq value_ok =>
    rename_i s₁ value after
    have htarget : Covers text first.stream s.stream [.node (.namePattern id)] :=
      .of_fragment ⟨trivial, rfl⟩ rfl rfl hname
    have hvalue : Covers text s.stream u.stream [.node value] :=
      (covers_of_takes eq).append (hd _ _ _ _ value_ok)
    have hboth := htarget.append hvalue
    refine covers_shorthand trivial rfl rfl rfl (hkey.append hvalue.forget) ?_
    exact node_of_first ⟨trivial, rfl⟩ rfl rfl rfl trivial hboth

theorem covers_memberKey {accessor : Option PropertyKind} {key : Key}
    (h : MemberKey d s accessor key u) : Covers text s.stream u.stream [.node key] := by
  cases h with
  | plain key_ok => exact covers_propertyName hd key_ok
  | accessor word_ok isAccessor key_ok =>
    exact (covers_propertyName hd word_ok).forget.append (covers_propertyName hd key_ok)

theorem covers_property {pending : Pending} {r : Member × Pending} (h : Property d pending s r u) :
    Covers text s.stream u.stream [.node r.1] := by
  cases h with
  | method star key_ok exclusive method_ok =>
    rename_i generator s₁ accessor key s₂ f
    have hkey := covers_memberKey hd key_ok
    refine node_of_first ⟨trivial, rfl⟩ rfl rfl rfl trivial ?_
    exact (covers_of_eats star).append (hkey.append (covers_method hd method_ok))
  | value key_ok colon value_ok =>
    rename_i key s₁ s₂ value after
    have hkey := covers_propertyName hd key_ok
    refine node_of_first ⟨trivial, rfl⟩ rfl rfl rfl trivial ?_
    exact hkey.append ((covers_of_takes colon).append (hd _ _ _ _ value_ok))
  | shorthand key_ok more =>
    exact covers_shorthandProperty hd rfl (covers_propertyName hd key_ok) more

theorem covers_members {isFirst : Bool} {pending : Pending} {r : List Member × Pending}
    (h : Members d isFirst pending s r u) :
    Covers text s.stream u.stream [.node (.ofList r.1)] := by
  cases h with
  | closed closing => exact (covers_of_takes closing).append .nil
  | trailing comma closing =>
    exact (covers_of_separator comma).append ((covers_of_takes closing).append .nil)
  | item comma item_ok more =>
    rename_i s₁ member between s₂ rest after _ _
    have hmember : Covers text s₁.stream s₂.stream [.node member] := by
      cases item_ok with
      | spread dots argument_ok =>
        exact node_of_takes ⟨trivial, rfl⟩ rfl dots rfl (hd _ _ _ _ argument_ok)
      | property property_ok => exact covers_property hd property_ok
    exact (covers_of_separator comma).append (hmember.cons (hd _ _ _ _ more))

theorem covers_primary {pending : Pending} {r : Expression × Pending}
    (h : Primary d pending s r u) : Covers text s.stream u.stream [.node r.1] := by
  cases h with
  | name kind name_ok => exact covers_nameOrArrow hd name_ok
  | this word => exact node_of_takes ⟨trivial, rfl⟩ rfl word rfl .refl
  | literal literal_ok => exact .of_fragment ⟨trivial, rfl⟩ rfl rfl (covers_literal literal_ok)
  | parenthesis kind parenthesis_ok => exact covers_parenthesis hd parenthesis_ok
  | array opening elements_ok =>
    exact node_of_takes ⟨trivial, rfl⟩ rfl opening rfl (hd _ _ _ _ elements_ok)
  | object opening members_ok =>
    exact node_of_takes ⟨trivial, rfl⟩ rfl opening rfl (hd _ _ _ _ members_ok)
  | function word function_ok =>
    obtain ⟨hf, hspan⟩ := covers_function hd (of_function function_ok)
    exact node_of_takes ⟨trivial, rfl⟩ hspan word rfl hf
  | template kind template_ok => exact covers_template hd template_ok
  | new kind new_ok => exact covers_newExpression hd kind new_ok

end Rules

end EcmaTree.Nesting
