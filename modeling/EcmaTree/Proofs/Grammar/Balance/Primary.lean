import EcmaTree.Proofs.Grammar.Balance.Expression

/-!
# Contexts of operands

Every bracket that an operand opens it closes itself. In a template the closing brace of an
expression leads back between the backquotes, and the closing backquote out of them.
-/

namespace EcmaTree.Balance

open EcmaTree.Parser EcmaTree.Grammar EcmaTree.Reading Node ContextStack

variable {d : Descent} {s u : ParseState}

theorem forall_mem_expressionsOf {items : List Element} (h : ∀ x ∈ items, x.IsUnkeyed) :
    ∀ e ∈ expressionsOf items, e.IsUnkeyed := by
  intro e he
  obtain ⟨x, hx, hvalue⟩ := List.mem_filterMap.mp he
  cases x with
  | item value =>
    cases hvalue
    exact (h _ hx).first rfl
  | spread | rest => cases hvalue

/-- The parameters of an arrow function have such a key if their expressions do. -/
theorem isUnkeyed_of_patternsOfElements {items : List Element} {ps : List (Option Pattern)}
    (h : patternsOfElements (items.map some) true = .ok ps)
    (hps : (ofList ps.reduceOption).IsUnkeyed) : ∀ e ∈ expressionsOf items, e.IsUnkeyed := by
  have hpatterns := forall_mem_reduceOption (isUnkeyed_ofList.mp hps)
  have helements := isUnkeyed_of_converts (converts_of_patternsOfElements h)
    (isUnkeyed_ofHoleyList.mpr hpatterns)
  refine forall_mem_expressionsOf fun x hx => isUnkeyed_ofHoleyList.mp helements x ?_
  simpa using hx

/-- The words for accessors do nothing to the contexts. -/
theorem of_accessorKind? {word : Key} {kind : PropertyKind} (h : accessorKind? word = some kind) :
    ∃ id, word = .nameKey id ∧ id.name ≠ "function" := by
  cases word with
  | nameKey id =>
    refine ⟨id, rfl, fun hname => ?_⟩
    simp [accessorKind?, hname] at h
  | literalKey | computedKey => cases h

section Rules

/- The answers that a rule depends on keep to the contexts. -/
variable (hd : ∀ g s r u, d g s = .ok r u → g.Balances s r u)

include hd

theorem closes_callArguments {arguments : Node (.list .element)}
    (h : suffixes.callArguments d s = .ok arguments u) (harguments : arguments.IsUnkeyed) :
    s.Closes .parenR u := by
  obtain ⟨elements, hitems, rfl⟩ := of_callArguments h
  exact hd _ _ _ _ hitems rfl (forall_mem_reduceOption (isUnkeyed_ofList.mp harguments))

theorem keeps_suffixes {base : Expression} {start : Place} {noCalls : Bool} {r : Expression}
    (h : Suffixes d base start noCalls s r u) (hr : r.IsUnkeyed) :
    base.IsUnkeyed ∧ s.Keeps u := by
  cases h with
  | done => exact ⟨hr, .refl s⟩
  | name dot name_ok more =>
    obtain ⟨he, hmore⟩ := hd _ _ _ _ more hr
    exact ⟨he.first rfl, (keeps_of_dot dot name_ok).trans hmore⟩
  | index opening property_ok closing more =>
    obtain ⟨he, hmore⟩ := hd _ _ _ _ more hr
    have hproperty := keeps_expression hd property_ok (he.second rfl)
    exact ⟨he.first rfl, (((keeps_of_takes opening rfl).trans hproperty).trans
      (keeps_of_takes closing rfl)).trans hmore⟩
  | call allowed opening arguments_ok more =>
    obtain ⟨he, hmore⟩ := hd _ _ _ _ more hr
    have harguments := closes_callArguments hd arguments_ok (he.second rfl)
    exact ⟨he.first rfl, (keeps_of_parens opening harguments).trans hmore⟩

theorem keeps_listElement {holes : Bool} {pending : Pending} {r : Option Element × Pending}
    (h : ListElement d holes pending s r u) (hr : ∀ x, r.1 = some x → x.IsUnkeyed) :
    s.Keeps u := by
  cases h with
  | hole => exact .refl s
  | spread dots argument_ok =>
    have hargument := hd _ _ _ _ argument_ok ((hr _ rfl).first rfl)
    exact (keeps_of_takes dots rfl).trans hargument
  | item item_ok => exact hd _ _ _ _ item_ok ((hr _ rfl).first rfl)

theorem closes_elements {stop : TokenKind} {trailingComma holes isFirst : Bool}
    {pending : Pending} {r : List (Option Element) × Pending}
    (hstop : stop.opensContext = false)
    (h : Elements d stop trailingComma holes isFirst pending s r u)
    (hr : ∀ x, some x ∈ r.1 → x.IsUnkeyed) : s.Closes stop u := by
  cases h with
  | closed closing => exact closes_of_takes closing hstop
  | trailing comma closing =>
    exact (keeps_of_separator comma).closes (closes_of_takes closing hstop)
  | item comma item_ok more =>
    have hitem := keeps_listElement hd item_ok fun x hx => hr x (List.mem_cons.mpr (.inl hx.symm))
    have hmore := hd _ _ _ _ more hstop fun x hx => hr x (List.mem_cons_of_mem _ hx)
    exact ((keeps_of_separator comma).trans hitem).closes hmore

theorem keeps_parenthesized {isFirst : Bool} {pending : Pending} {r : List Element × Pending}
    (h : Parenthesized d isFirst pending s r u)
    (hr : ∀ e ∈ expressionsOf r.1, e.IsUnkeyed) : s.Keeps u := by
  cases h with
  | done => exact .refl s
  | rest comma dots rest_ok =>
    exact (keeps_of_separator comma).trans (keeps_of_restOfBinding dots rest_ok)
  | item comma item_ok more =>
    obtain ⟨he, hrest⟩ := List.forall_mem_cons.mp hr
    have hitem : ParseState.Keeps _ _ := hd _ _ _ _ item_ok he
    exact ((keeps_of_separator comma).trans hitem).trans (hd _ _ _ _ more hrest)

theorem keeps_parenthesizedExpression {start : Place} {canBeArrow : Bool} {e : Expression}
    (h : ParenthesizedExpression d start canBeArrow s e u) (he : e.IsUnkeyed) : s.Keeps u := by
  have enclosed {s₁ s₂ t : ParseState} (opening : Takes .parenL s s₁) (h : s₁.Keeps s₂)
      (closing : Takes .parenR s₂ t) : s.Keeps t :=
    keeps_of_parens opening (h.closes (closes_of_takes closing rfl))
  cases h with
  | arrow allowed opening items_ok closing patterns_ok legal arrow_ok =>
    obtain ⟨hparams, harrow⟩ := keeps_arrow hd arrow_ok he
    have hitems := isUnkeyed_of_patternsOfElements patterns_ok hparams
    exact (enclosed opening (hd _ _ _ _ items_ok hitems) closing).trans harrow
  | single opening items_ok closing no_rest one =>
    have hitems := one ▸ List.forall_mem_singleton.mpr he
    exact enclosed opening (hd _ _ _ _ items_ok hitems) closing
  | sequence opening items_ok closing =>
    have hitems := isUnkeyed_ofList.mp (he.first rfl)
    exact enclosed opening (hd _ _ _ _ items_ok hitems) closing

theorem keeps_parenthesis {canBeArrow : Bool} {e : Expression}
    (h : Parenthesis d canBeArrow s e u) (he : e.IsUnkeyed) : s.Keeps u := by
  cases h with
  | arrow allowed params_ok arrow_ok =>
    obtain ⟨hparams, harrow⟩ := keeps_arrow hd arrow_ok he
    obtain ⟨s₁, opening, hlist, -, -⟩ := of_arrowParameters params_ok
    have hcloses := closes_parameters hd hlist (isUnkeyed_ofList.mp hparams)
    exact (keeps_of_parens opening hcloses.closes).trans harrow
  | list no_params list_ok => exact keeps_parenthesizedExpression hd list_ok he

theorem keeps_nameOrArrow {canBeArrow : Bool} {e : Expression}
    (h : NameOrArrow d canBeArrow s e u) (he : e.IsUnkeyed) : s.Keeps u := by
  cases h with
  | name name_ok => exact keeps_of_identifier name_ok
  | arrow allowed name_ok arrow_ok =>
    exact (keeps_of_identifier name_ok).trans (keeps_arrow hd arrow_ok he).2

theorem keeps_newExpression {e : Expression} (kind : s.kind = .keyword .new)
    (h : newExpression d s = .ok e u) (he : e.IsUnkeyed) : s.Keeps u := by
  obtain ⟨s₁, atom, s₂, callee, s₃, arguments, word, atom_ok, callee_ok, harguments, rfl⟩ :=
    of_newExpression h
  obtain ⟨hatom, hsuffixes⟩ := hd _ _ _ _ callee_ok (he.first rfl)
  have hbase : s₁.Keeps s₂ := hd _ _ _ _ atom_ok hatom
  have hcallee := ((keeps_of_takes ⟨kind, word⟩ rfl).trans hbase).trans hsuffixes
  cases harguments with
  | none => exact hcallee
  | given opening arguments_ok =>
    have hcloses := closes_callArguments hd arguments_ok (he.second rfl)
    exact hcallee.trans (keeps_of_parens opening hcloses)

theorem balances_chunks {r : List TemplateElement × List Expression} (h : Chunks d s r u) :
    Goal.chunks.Balances s r u := by
  intro hr
  cases h with
  | last kind value chunk closing =>
    exact ⟨closing, fun σ hs => lies_of_takes ⟨kind, chunk⟩ rfl hs⟩
  | more kind value chunk opening value_ok closing more =>
    obtain ⟨he, hrest⟩ := List.forall_mem_cons.mp hr
    obtain ⟨hquote, hmore⟩ := hd _ _ _ _ more hrest
    refine ⟨hquote, fun σ hs => hmore σ ?_⟩
    have h₂ := lies_of_dollarBraceL opening (lies_of_takes ⟨kind, chunk⟩ rfl hs)
    have hvalue := keeps_expression hd value_ok he
    have h₃ := hvalue (.braceTemplate :: .quoteTemplate :: σ) ⟨nofun, nofun⟩ h₂
    exact (liesBehind_of_takes closing rfl h₃).lies

theorem keeps_template {e : Expression} (h : template d s = .ok e u) (he : e.IsUnkeyed) :
    s.Keeps u := by
  obtain ⟨s₁, quasis, values, s₂, opening, chunks_ok, closing, rfl⟩ := of_template h
  obtain ⟨hquote, hchunks⟩ := hd _ _ _ _ chunks_ok (isUnkeyed_ofList.mp (he.first rfl))
  intro σ hσ hs
  exact lies_of_endQuote ⟨hquote, closing⟩ (hchunks σ (lies_of_backQuote opening hσ hs))

/-- A property without a colon has its key for a name, so the key is not the word `function`. -/
theorem keeps_shorthandProperty {start : Place} {id : Identifier} {pending : Pending}
    {r : Member × Pending} (h : ShorthandProperty d start id pending s r u)
    (hr : r.1.IsUnkeyed) : id.name ≠ "function" ∧ s.Keeps u := by
  cases h with
  | bare => exact ⟨name_ne_of_property hr id rfl, .refl s⟩
  | default eq value_ok =>
    have hvalue := hd _ _ _ _ value_ok ((hr.second rfl).second rfl)
    exact ⟨name_ne_of_property hr id rfl, (keeps_of_takes eq rfl).trans hvalue⟩

theorem begins_memberKey {accessor : Option PropertyKind} {key : Key}
    (h : MemberKey d s accessor key u) (hkey : key.IsUnkeyed) : s.Begins u := by
  cases h with
  | plain key_ok => exact (begins_of_propertyName hd key_ok hkey).1
  | accessor word_ok isAccessor key_ok =>
    obtain ⟨id, rfl, hne⟩ := of_accessorKind? isAccessor
    obtain ⟨-, hword⟩ := begins_of_propertyName hd word_ok rfl
    have hkeeps := hword (by rintro _ ⟨⟩; exact hne)
    exact fun σ hσ hs => (begins_of_propertyName hd key_ok hkey).1 σ hσ (hkeeps σ hσ hs)

theorem keeps_property {pending : Pending} {r : Member × Pending}
    (h : Property d pending s r u) (hr : r.1.IsUnkeyed) : s.Keeps u := by
  cases h with
  | method star key_ok exclusive method_ok =>
    have hfunction := hr.second rfl
    have hfinishes := finishes_method hd method_ok (hfunction.first rfl) (hfunction.second rfl)
    have hbegins := begins_memberKey hd key_ok (hr.first rfl)
    exact (keeps_of_eats star rfl).trans (hbegins.trans hfinishes)
  | value key_ok colon value_ok =>
    obtain ⟨-, hkey⟩ := begins_of_propertyName hd key_ok (hr.first rfl)
    have hplain := hkey (name_ne_of_property hr)
    have hvalue : ParseState.Keeps _ _ := hd _ _ _ _ value_ok (hr.second rfl)
    exact (hplain.trans (keeps_of_takes colon rfl)).trans hvalue
  | shorthand key_ok more =>
    obtain ⟨hne, hmore⟩ := keeps_shorthandProperty hd more hr
    obtain ⟨-, hkey⟩ := begins_of_propertyName hd key_ok rfl
    exact (hkey (by rintro _ ⟨⟩; exact hne)).trans hmore

theorem keeps_member {pending : Pending} {r : Member × Pending}
    (h : ObjectMember d pending s r u) (hr : r.1.IsUnkeyed) : s.Keeps u := by
  cases h with
  | spread dots argument_ok =>
    have hargument := hd _ _ _ _ argument_ok (hr.first rfl)
    exact (keeps_of_takes dots rfl).trans hargument
  | property property_ok => exact keeps_property hd property_ok hr

theorem closes_members {isFirst : Bool} {pending : Pending} {r : List Member × Pending}
    (h : Members d isFirst pending s r u) (hr : ∀ x ∈ r.1, x.IsUnkeyed) :
    s.Closes .braceR u := by
  cases h with
  | closed closing => exact closes_of_takes closing rfl
  | trailing comma closing => exact (keeps_of_separator comma).closes (closes_of_takes closing rfl)
  | item comma item_ok more =>
    obtain ⟨hmember, hmembers⟩ := List.forall_mem_cons.mp hr
    have hitem := keeps_member hd item_ok hmember
    exact ((keeps_of_separator comma).trans hitem).closes (hd _ _ _ _ more hmembers)

theorem keeps_primary {pending : Pending} {r : Expression × Pending}
    (h : Primary d pending s r u) (hr : r.1.IsUnkeyed) : s.Keeps u := by
  cases h with
  | name kind name_ok => exact keeps_nameOrArrow hd name_ok hr
  | this word => exact keeps_of_takes word rfl
  | literal literal_ok => exact keeps_of_literal literal_ok
  | parenthesis kind parenthesis_ok => exact keeps_parenthesis hd parenthesis_ok hr
  | array opening elements_ok =>
    have helements := hd _ _ _ _ elements_ok rfl (isUnkeyed_ofHoleyList.mp (hr.first rfl))
    exact (keeps_of_takes opening rfl).trans (helements.keeps rfl)
  | object opening members_ok =>
    exact keeps_of_braces opening (hd _ _ _ _ members_ok (isUnkeyed_ofList.mp (hr.first rfl)))
  | function word function_ok =>
    have hfinishes := finishes_function hd (of_function function_ok) (hr.first rfl) (hr.second rfl)
    exact (begins_of_function word).trans hfinishes
  | template kind template_ok => exact keeps_template hd template_ok hr
  | new kind new_ok => exact keeps_newExpression hd kind new_ok hr

end Rules

end EcmaTree.Balance
