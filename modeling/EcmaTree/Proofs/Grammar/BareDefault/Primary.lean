import EcmaTree.Proofs.Grammar.BareDefault.Expression

/-!
# Bare defaults of operands

The lists that an operand consists of hand a pending default from item to item. A shorthand
default records its place unless one is pending already; whatever its value holds open stays
open behind that place.
-/

namespace EcmaTree.BareDefault

open EcmaTree.Parser EcmaTree.Grammar EcmaTree.Reading EcmaTree.Trail Node ParseState

variable {d : Descent} {s u : ParseState}

theorem item_mem_of_mem_expressionsOf {items : List Element} {x : Expression}
    (h : x ∈ expressionsOf items) : .item x ∈ items := by
  obtain ⟨element, hmem, helement⟩ := List.mem_filterMap.mp h
  cases element <;> cases helement
  exact hmem

/-- The place of a shorthand default is pending after it, or an earlier one is. -/
theorem record_ne_none (pending : Pending) (place : Place) : pending.record place ≠ none := by
  cases pending <;> nofun

theorem isBehind_record {pending : Pending} (hp : IsBehind pending s)
    (hlt : s.place.offset < u.place.offset) : IsBehind (pending.record s.place) u := by
  cases pending with
  | none =>
    rintro _ ⟨⟩
    exact hlt
  | some first =>
    rintro _ ⟨⟩
    exact Nat.lt_trans (hp first rfl) hlt

section Rules

/- The answers that a rule depends on follow their token streams and hold what they should. -/
variable (ht : ∀ g s r u, d g s = .ok r u → g.IsBounded → g.Traces s u)
  (hd : ∀ g s r u, d g s = .ok r u → g.IsBounded → s.stream.IsPlaced → g.Holds s r u)

include hd

theorem isHeld_of_callArguments {arguments : Node (.list .element)} (hs : s.stream.IsPlaced)
    (h : suffixes.callArguments d s = .ok arguments u) : arguments.IsHeld := by
  obtain ⟨elements, he, rfl⟩ := of_callArguments h
  have hg := hd _ _ _ _ he nofun hs isBehind_none
  exact defaultsHeld_ofList.mpr fun x hx => hg.settled rfl x (List.reduceOption_mem_iff.mp hx)

include ht

theorem isHeld_of_suffixes {base : Expression} {start : Place} {noCalls : Bool}
    {r : Expression} (hs : s.stream.IsPlaced) (hbase : base.IsHeld)
    (h : Suffixes d base start noCalls s r u) :
    r.IsHeld ∧ (start.offset ≤ base.span.start.offset → start.offset ≤ r.span.start.offset) := by
  cases h with
  | done => exact ⟨hbase, id⟩
  | name dot name_ok more =>
    have h₁ := placed hs (follows_of_takes dot (by decide))
    have h₂ := placed h₁ (follows_of_identifier name_ok)
    obtain ⟨hr, hstart⟩ := hd _ _ _ _ more trivial h₂ (Bool.and_eq_true_iff.mpr ⟨hbase, rfl⟩)
    exact ⟨hr, fun _ => hstart (le_start_spanFrom _ _)⟩
  | index opening property_ok closing more =>
    have h₁ := placed hs (follows_of_takes opening (by decide))
    have h₂ := placed h₁ (follows_of_expression ht property_ok)
    have h₃ := placed h₂ (follows_of_takes closing (by decide))
    have hproperty := isHeld_of_expression ht hd h₁ property_ok
    obtain ⟨hr, hstart⟩ := hd _ _ _ _ more trivial h₃ (Bool.and_eq_true_iff.mpr ⟨hbase, hproperty⟩)
    exact ⟨hr, fun _ => hstart (le_start_spanFrom _ _)⟩
  | call allowed opening arguments_ok more =>
    have h₁ := placed hs (follows_of_takes opening (by decide))
    have h₂ := placed h₁ (follows_of_callArguments ht arguments_ok)
    have harguments := isHeld_of_callArguments hd h₁ arguments_ok
    obtain ⟨hr, hstart⟩ :=
      hd _ _ _ _ more trivial h₂ (Bool.and_eq_true_iff.mpr ⟨hbase, harguments⟩)
    exact ⟨hr, fun _ => hstart (le_start_spanFrom _ _)⟩

omit ht in
/-- A value that hands its pending default on. -/
theorem gathers_of_value {noIn : Bool} {pending after : Pending} {e : Expression}
    (hs : s.stream.IsPlaced) (hp : IsBehind pending s)
    (h : d (.assignment noIn false pending) s = .ok (e, after) u) :
    GathersExpression pending s (e, after) u :=
  (hd _ _ _ _ h trivial hs nofun hp).1

theorem gathers_of_listElement {holes : Bool} {pending : Pending}
    {r : Option Element × Pending} (hs : s.stream.IsPlaced) (hp : IsBehind pending s)
    (h : ListElement d holes pending s r u) :
    Gathers pending r.2 u fun isOpen => ∀ x, r.1 = some x → x.defaultsHeld isOpen false = true := by
  cases h with
  | hole => exact .of_held hp hs .refl fun _ => nofun
  | spread dots argument_ok =>
    have hf₁ := follows_of_takes dots (by decide)
    have h₁ := placed hs hf₁
    obtain ⟨hg, -⟩ := gathers_of_value hd h₁ (hp.mono hs hf₁) argument_ok
    refine hg.mono (placed h₁ (follows_of_goal ht argument_ok trivial)) .refl ?_
    rintro isOpen hheld _ ⟨⟩
    exact hheld
  | item item_ok =>
    obtain ⟨hg, -⟩ := gathers_of_value hd hs hp item_ok
    refine hg.mono (placed hs (follows_of_goal ht item_ok trivial)) .refl ?_
    rintro isOpen hheld _ ⟨⟩
    exact hheld

theorem gathers_of_elements {stop : TokenKind} {trailingComma holes isFirst : Bool}
    {pending : Pending} {r : List (Option Element) × Pending} (hstop : stop ≠ .eof)
    (hs : s.stream.IsPlaced) (hp : IsBehind pending s)
    (h : Elements d stop trailingComma holes isFirst pending s r u) :
    Gathers pending r.2 u fun isOpen =>
      ∀ x, some x ∈ r.1 → x.defaultsHeld isOpen false = true := by
  cases h with
  | closed closing => exact .of_held hp hs (follows_of_takes closing hstop) fun _ => nofun
  | trailing comma closing =>
    have hf := (follows_of_separator comma).trans (follows_of_takes closing hstop)
    exact .of_held hp hs hf fun _ => nofun
  | item comma item_ok more =>
    have hf₁ := follows_of_separator comma
    have h₁ := placed hs hf₁
    have h₂ := placed h₁ (follows_of_listElement ht item_ok)
    have hg := gathers_of_listElement ht hd h₁ (hp.mono hs hf₁) item_ok
    have hg' := hd _ _ _ _ more hstop h₂ hg.behind
    refine (hg.append hg').mono (placed h₂ (follows_of_goal ht more hstop)) .refl ?_
    rintro isOpen ⟨hfirst, hrest⟩ x hx
    rcases List.mem_cons.mp hx with hx | hx
    · exact hfirst x hx.symm
    · exact hrest x hx

theorem gathers_of_parenthesized {isFirst : Bool} {pending : Pending}
    {r : List Element × Pending} (hs : s.stream.IsPlaced) (hp : IsBehind pending s)
    (h : Parenthesized d isFirst pending s r u) :
    Gathers pending r.2 u (fun isOpen => ∀ x ∈ r.1, x.defaultsHeld isOpen false = true) ∧
      ∀ x ∈ r.1, s.place.offset ≤ x.span.start.offset := by
  cases h with
  | done => exact ⟨.of_held hp hs .refl fun _ => nofun, nofun⟩
  | rest comma dots rest_ok =>
    have hf₁ := follows_of_separator comma
    have hf₂ := follows_of_restOfBinding dots rest_ok
    obtain ⟨s₂, id, -, -, ⟨⟩⟩ := of_restOfBinding rest_ok
    refine ⟨.of_held hp hs (hf₁.trans hf₂) fun isOpen => ?_, ?_⟩
    · exact List.forall_mem_cons.mpr ⟨rfl, nofun⟩
    · refine List.forall_mem_cons.mpr ⟨?_, nofun⟩
      exact Nat.le_trans (place_le_of_follows hs hf₁) (le_start_spanFrom _ _)
  | item comma item_ok more =>
    have hf₁ := follows_of_separator comma
    have h₁ := placed hs hf₁
    have hf₂ := follows_of_goal ht item_ok trivial
    have h₂ := placed h₁ hf₂
    obtain ⟨hg, hstart⟩ := gathers_of_value hd h₁ (hp.mono hs hf₁) item_ok
    obtain ⟨hg', hstarts⟩ := hd _ _ _ _ more trivial h₂ hg.behind
    have hle := place_le_of_follows hs (hf₁.trans hf₂)
    refine ⟨(hg.append hg').mono (placed h₂ (follows_of_goal ht more trivial)) .refl ?_, ?_⟩
    · exact fun isOpen h => List.forall_mem_cons.mpr h
    · refine List.forall_mem_cons.mpr ⟨?_, fun x hx => Nat.le_trans hle (hstarts x hx)⟩
      exact Nat.le_trans (place_le_of_follows hs hf₁) hstart

/-- A parenthesis is no spine: what it holds open becomes parameters or is refused. -/
theorem isHeld_of_parenthesizedExpression {canBeArrow : Bool} {e : Expression}
    (hs : s.stream.IsPlaced) (h : ParenthesizedExpression d s.place canBeArrow s e u) :
    e.IsHeld ∧ s.place.offset ≤ e.span.start.offset := by
  cases h with
  | arrow allowed opening items_ok closing patterns_ok legal arrow_ok =>
    have h₁ := placed hs (follows_of_takes opening (by decide))
    have h₂ := placed h₁ (follows_of_goal ht items_ok trivial)
    have h₃ := placed h₂ (follows_of_takes closing (by decide))
    obtain ⟨hg, -⟩ := hd _ _ _ _ items_ok trivial h₁ isBehind_none
    have hparams := defaultsHeld_of_patternsOfElements patterns_ok
      (fun x hx => by
        obtain ⟨y, hy, ⟨⟩⟩ := List.mem_map.mp hx
        exact hg.isOpen x hy)
      (isSpreadless_of_checkAll legal)
    obtain ⟨he, hstart⟩ := isHeld_of_arrow hd h₃ hparams arrow_ok
    exact ⟨he false, Nat.le_of_eq (congrArg Place.offset hstart).symm⟩
  | single opening items_ok closing no_rest one =>
    rename_i s₁ items s₂
    have hf₁ := follows_of_takes opening (by decide)
    have h₁ := placed hs hf₁
    obtain ⟨hg, hstarts⟩ := hd _ _ _ _ items_ok trivial h₁ isBehind_none
    have hmem : .item e ∈ items := item_mem_of_mem_expressionsOf (one ▸ List.mem_singleton_self e)
    have he := hg.settled rfl _ hmem
    exact ⟨he, Nat.le_trans (place_le_of_follows hs hf₁) (hstarts _ hmem)⟩
  | sequence opening items_ok closing nonempty no_rest many =>
    rename_i s₁ items s₂
    have hf₁ := follows_of_takes opening (by decide)
    have h₁ := placed hs hf₁
    obtain ⟨hg, -⟩ := hd _ _ _ _ items_ok trivial h₁ isBehind_none
    have he : (ofList (expressionsOf items)).IsHeld := defaultsHeld_ofList.mpr fun x hx =>
      hg.settled rfl (.item x) (item_mem_of_mem_expressionsOf hx)
    refine ⟨he, Nat.le_trans (place_le_of_follows hs hf₁) (Nat.le_of_eq ?_)⟩
    exact (congrArg Place.offset (Span.start_closing _ _)).symm

theorem isHeld_of_parenthesis {canBeArrow : Bool} {e : Expression} (hs : s.stream.IsPlaced)
    (h : Parenthesis d canBeArrow s e u) : e.IsHeld ∧ s.place.offset ≤ e.span.start.offset := by
  cases h with
  | arrow allowed params_ok arrow_ok =>
    obtain ⟨s₁, htakes, hparams, -⟩ := of_arrowParameters params_ok
    have h₁ := placed hs (follows_of_takes htakes (by decide))
    have h₂ := placed h₁ (follows_of_parameters ht hparams)
    obtain ⟨he, hstart⟩ := isHeld_of_arrow hd h₂ (isHeld_of_parameters hd h₁ hparams) arrow_ok
    exact ⟨he false, Nat.le_of_eq (congrArg Place.offset hstart).symm⟩
  | list no_params list_ok => exact isHeld_of_parenthesizedExpression ht hd hs list_ok

omit ht in
theorem isHeld_of_nameOrArrow {canBeArrow : Bool} {e : Expression} (hs : s.stream.IsPlaced)
    (h : NameOrArrow d canBeArrow s e u) : e.IsHeld ∧ s.place.offset ≤ e.span.start.offset := by
  cases h with
  | name name_ok =>
    obtain ⟨name, -, -, -, rfl⟩ := of_identifier name_ok
    exact ⟨rfl, le_start_spanFrom _ _⟩
  | arrow allowed name_ok arrow_ok =>
    rename_i id s₁
    have h₁ := placed hs (follows_of_identifier name_ok)
    have hparams : ∀ p ∈ [namePattern id], p.IsHeld := List.forall_mem_singleton.mpr rfl
    obtain ⟨he, hstart⟩ := isHeld_of_arrow hd h₁ hparams arrow_ok
    exact ⟨he false, Nat.le_of_eq (congrArg Place.offset hstart).symm⟩

theorem isHeld_of_newExpression {e : Expression} (hs : s.stream.IsPlaced)
    (hk : s.kind = .keyword .new) (h : newExpression d s = .ok e u) :
    e.IsHeld ∧ s.place.offset ≤ e.span.start.offset := by
  obtain ⟨s₁, atom, s₂, callee, s₃, arguments, ha, hatom, hcallee, hargs, rfl⟩ :=
    of_newExpression h
  have h₁ := placed hs (follows_of_advance (by simp [hk]) ha)
  have h₂ := placed h₁ (follows_of_goal ht hatom trivial)
  have h₃ := placed h₂ (follows_of_goal ht hcallee trivial)
  obtain ⟨hg, -⟩ := hd _ _ _ _ hatom trivial h₁ isBehind_none
  obtain ⟨hc, -⟩ := hd _ _ _ _ hcallee trivial h₂ (hg.settled rfl)
  have harguments : arguments.IsHeld := by
    cases hargs with
    | none => rfl
    | given opening arguments_ok =>
      have h₄ := placed h₃ (follows_of_takes opening (by decide))
      exact isHeld_of_callArguments hd h₄ arguments_ok
  refine ⟨Bool.and_eq_true_iff.mpr ⟨hc, harguments⟩, ?_⟩
  exact le_start_spanFrom _ _

theorem isHeld_of_chunks {r : List TemplateElement × List Expression} (hs : s.stream.IsPlaced)
    (h : Chunks d s r u) : ∀ x ∈ r.2, x.IsHeld := by
  cases h with
  | last => nofun
  | more kind value chunk opening value_ok closing more =>
    have h₁ := placed hs (follows_of_advance (by simp [kind]) chunk)
    have h₂ := placed h₁ (follows_of_takes opening (by decide))
    have h₃ := placed h₂ (follows_of_expression ht value_ok)
    have h₄ := placed h₃ (follows_of_takes closing (by decide))
    exact List.forall_mem_cons.mpr
      ⟨isHeld_of_expression ht hd h₂ value_ok, hd _ _ _ _ more trivial h₄⟩

omit ht in
theorem isHeld_of_template {e : Expression} (hs : s.stream.IsPlaced)
    (h : template d s = .ok e u) : e.IsHeld ∧ s.place.offset ≤ e.span.start.offset := by
  obtain ⟨s₁, quasis, values, s₂, htakes, hc, -, rfl⟩ := of_template h
  have h₁ := placed hs (follows_of_takes htakes (by decide))
  have he : (ofList values).IsHeld := defaultsHeld_ofList.mpr (hd _ _ _ _ hc trivial h₁)
  exact ⟨he, le_start_spanFrom _ _⟩

omit ht in
/-- A shorthand default is open itself, and so is what its value holds open. -/
theorem gathers_of_shorthandProperty {start : Place} {id : Identifier} {pending : Pending}
    {r : Member × Pending} (hs : s.stream.IsPlaced) (hp : IsBehind pending s)
    (h : ShorthandProperty d start id pending s r u) :
    Gathers pending r.2 u fun isOpen => r.1.defaultsHeld isOpen false = true := by
  cases h with
  | bare => exact .of_held hp hs .refl fun _ => rfl
  | default eq value_ok =>
    have hf₁ := follows_of_takes eq (by decide)
    have h₁ := placed hs hf₁
    have hlt := place_lt_of_takes hs eq (by decide) (by decide)
    obtain ⟨hg, -⟩ := gathers_of_value hd h₁ (isBehind_record hp hlt) value_ok
    refine ⟨?_, ?_, ?_, hg.behind⟩
    · exact defaultsHeld_property.mpr
        ⟨rfl, defaultsHeld_assignment.mpr ⟨.inl rfl, rfl, hg.isOpen⟩⟩
    · rintro rfl
      exact absurd (eq_none_of_gathers hg) (record_ne_none pending s.place)
    · rintro place rfl
      exact hg.keeps place rfl

theorem isHeld_of_memberKey {accessor : Option PropertyKind} {key : Key}
    (hs : s.stream.IsPlaced) (h : MemberKey d s accessor key u) : key.IsHeld := by
  cases h with
  | plain key_ok => exact isHeld_of_propertyName hd hs key_ok
  | accessor word_ok isAccessor key_ok =>
    have h₁ := placed hs (follows_of_propertyName ht word_ok)
    exact isHeld_of_propertyName hd h₁ key_ok

theorem gathers_of_property {pending : Pending} {r : Member × Pending}
    (hs : s.stream.IsPlaced) (hp : IsBehind pending s) (h : Property d pending s r u) :
    Gathers pending r.2 u fun isOpen => r.1.defaultsHeld isOpen false = true := by
  have hf := follows_of_property ht h
  cases h with
  | method star key_ok exclusive method_ok =>
    have h₁ := placed hs (follows_of_eats star (by decide))
    have h₂ := placed h₁ (follows_of_memberKey ht key_ok)
    have hkey := isHeld_of_memberKey ht hd h₁ key_ok
    have hparts := partsHeld_of_method ht hd h₂ method_ok
    exact .of_held hp hs hf fun isOpen =>
      defaultsHeld_property.mpr ⟨hkey, isHeld_toExpression hparts isOpen⟩
  | value key_ok colon value_ok =>
    have hf₁ := follows_of_propertyName ht key_ok
    have hf₂ := follows_of_takes colon (by decide)
    have h₁ := placed hs hf₁
    have h₂ := placed h₁ hf₂
    have hkey := isHeld_of_propertyName hd hs key_ok
    obtain ⟨hg, -⟩ := gathers_of_value hd h₂ ((hp.mono hs hf₁).mono h₁ hf₂) value_ok
    exact hg.mono (placed hs hf) .refl fun isOpen h => defaultsHeld_property.mpr ⟨hkey, h⟩
  | shorthand key_ok more =>
    have hf₁ := follows_of_propertyName ht key_ok
    exact gathers_of_shorthandProperty hd (placed hs hf₁) (hp.mono hs hf₁) more

theorem gathers_of_objectMember {pending : Pending} {r : Member × Pending}
    (hs : s.stream.IsPlaced) (hp : IsBehind pending s) (h : ObjectMember d pending s r u) :
    Gathers pending r.2 u fun isOpen => r.1.defaultsHeld isOpen false = true := by
  cases h with
  | spread dots argument_ok =>
    have hf₁ := follows_of_takes dots (by decide)
    have h₁ := placed hs hf₁
    obtain ⟨hg, -⟩ := gathers_of_value hd h₁ (hp.mono hs hf₁) argument_ok
    exact hg
  | property property_ok => exact gathers_of_property ht hd hs hp property_ok

theorem gathers_of_members {isFirst : Bool} {pending : Pending} {r : List Member × Pending}
    (hs : s.stream.IsPlaced) (hp : IsBehind pending s) (h : Members d isFirst pending s r u) :
    Gathers pending r.2 u fun isOpen => ∀ x ∈ r.1, x.defaultsHeld isOpen false = true := by
  cases h with
  | closed closing => exact .of_held hp hs (follows_of_takes closing (by decide)) fun _ => nofun
  | trailing comma closing =>
    have hf := (follows_of_separator comma).trans (follows_of_takes closing (by decide))
    exact .of_held hp hs hf fun _ => nofun
  | item comma item_ok more =>
    have hf₁ := follows_of_separator comma
    have h₁ := placed hs hf₁
    have h₂ := placed h₁ (follows_of_objectMember ht item_ok)
    have hg := gathers_of_objectMember ht hd h₁ (hp.mono hs hf₁) item_ok
    have hg' := hd _ _ _ _ more trivial h₂ hg.behind
    refine (hg.append hg').mono (placed h₂ (follows_of_goal ht more trivial)) .refl ?_
    exact fun isOpen h => List.forall_mem_cons.mpr h

theorem gathers_of_primary {pending : Pending} {r : Expression × Pending}
    (hs : s.stream.IsPlaced) (hp : IsBehind pending s) (h : Primary d pending s r u) :
    GathersExpression pending s r u := by
  have hf := follows_of_primary ht h
  have hspan : s.place.offset ≤ (u.spanFrom s.place).start.offset := le_start_spanFrom _ _
  cases h with
  | name kind name_ok =>
    obtain ⟨he, hstart⟩ := isHeld_of_nameOrArrow hd hs name_ok
    exact gathersExpression_of_isHeld hp hs hf he hstart
  | this word => exact gathersExpression_of_isHeld hp hs hf rfl (hspan)
  | literal literal_ok =>
    obtain ⟨value, -, -, rfl⟩ := of_literal literal_ok
    exact gathersExpression_of_isHeld hp hs hf rfl (hspan)
  | parenthesis kind parenthesis_ok =>
    obtain ⟨he, hstart⟩ := isHeld_of_parenthesis ht hd hs parenthesis_ok
    exact gathersExpression_of_isHeld hp hs hf he hstart
  | array opening elements_ok =>
    have hf₁ := follows_of_takes opening (by decide)
    have hg := hd _ _ _ _ elements_ok nofun (placed hs hf₁) (hp.mono hs hf₁)
    refine ⟨hg.mono (placed hs hf) .refl fun isOpen h => ?_, hspan⟩
    exact defaultsHeld_ofHoleyList.mpr h
  | object opening members_ok =>
    have hf₁ := follows_of_takes opening (by decide)
    have hg := hd _ _ _ _ members_ok trivial (placed hs hf₁) (hp.mono hs hf₁)
    refine ⟨hg.mono (placed hs hf) .refl fun isOpen h => ?_, hspan⟩
    exact defaultsHeld_ofList.mpr h
  | function word function_ok =>
    have h₁ := placed hs (follows_of_takes word (by decide))
    have hfunction := of_function function_ok
    have he := isHeld_toExpression (partsHeld_of_function ht hd h₁ hfunction) false
    refine gathersExpression_of_isHeld hp hs hf he ?_
    cases hfunction
    exact hspan
  | template kind template_ok =>
    obtain ⟨he, hstart⟩ := isHeld_of_template hd hs template_ok
    exact gathersExpression_of_isHeld hp hs hf he hstart
  | new kind new_ok =>
    obtain ⟨he, hstart⟩ := isHeld_of_newExpression ht hd hs kind new_ok
    exact gathersExpression_of_isHeld hp hs hf he hstart

end Rules

end EcmaTree.BareDefault
