import EcmaTree.Proofs.Grammar.Legality.Expression

/-!
# Legal operands

A parenthesized list may gather a rest into a name, which only the parameters of an arrow
function keep. The items of array literals and argument lists are read without it.
-/

namespace EcmaTree.Legality

open EcmaTree.Parser EcmaTree.Grammar EcmaTree.Reading Node

variable {options : ParseOptions} {d : Descent} {σ : Scope} {front : Nat}
  {s u : ParseState}

theorem not_isRestElement_ofHoleyList {xs : List (Option Element)}
    (h : ∀ x, some x ∈ xs → x.isRestElement = false) :
    ∀ x ∈ (ofHoleyList xs).toList, x.isRestElement = false := by
  unfold ofHoleyList
  rw [toList_ofList, List.forall_mem_map]
  intro x hx
  cases x with
  | none => rfl
  | some x => exact h x hx

theorem not_isRestElement_reduceOption {xs : List (Option Element)}
    (h : ∀ x, some x ∈ xs → x.isRestElement = false) :
    ∀ x ∈ (ofList xs.reduceOption).toList, x.isRestElement = false := by
  rw [toList_ofList]
  exact fun x hx => h x (List.reduceOption_mem_iff.mp hx)

theorem isFormed_expressionsOf {items : List Element}
    (h : ∀ x ∈ items, x.IsFormed options σ ∧ front ≤ x.span.start.offset) :
    ∀ e ∈ expressionsOf items, e.IsFormed options σ ∧ front ≤ e.span.start.offset := by
  intro e he
  obtain ⟨x, hx, hvalue⟩ := List.mem_filterMap.mp he
  cases x with
  | item value =>
    cases hvalue
    obtain ⟨hformed, hle⟩ := h _ hx
    refine ⟨⟨hformed.everywhere.here.proper _ List.mem_cons_self, ?_⟩, hle⟩
    exact hformed.everywhere.part List.mem_cons_self
  | spread | rest => cases hvalue

/-- Without a rest at the end all items are expressions. -/
theorem length_expressionsOf_cons {e : Expression} {items : List Element}
    (h : restAtEnd? items = none → (expressionsOf items).length = items.length) :
    restAtEnd? (.item e :: items) = none →
      (expressionsOf (.item e :: items)).length = (.item e :: items : List Element).length := by
  intro hrest
  refine congrArg Nat.succ (h ?_)
  cases items with
  | nil => rfl
  | cons x xs => exact hrest

theorem two_le_length_of_many {items : List Element} (nonempty : items ≠ [])
    (all : (expressionsOf items).length = items.length) (many : (expressionsOf items).length ≠ 1) :
    2 ≤ (expressionsOf items).length := by
  have hpos := List.length_pos_iff.mpr nonempty
  omega

/-- The patterns of a list of expressions are legal if a check has come through them. -/
theorem isFormed_patternsOfElements {items : List Element} {ps : List (Option Pattern)}
    {isBinding : Bool} {strict : Bool} {names : Option (List String)}
    (h : patternsOfElements (items.map some) isBinding = .ok ps)
    (hcheck : Pattern.checkAll strict isBinding names ps.reduceOption = .ok ())
    (hitems : ∀ x ∈ items, x.IsFormed options σ) :
    (∀ p ∈ ps.reduceOption, p.IsFormed options σ) ∧ (ofList ps.reduceOption).RestLast := by
  have hc := converts_of_patternsOfElements h
  have hspreadless := isSpreadless_ofHoleyList (isSpreadless_of_checkAll hcheck)
  have hlist : (ofHoleyList (items.map some)).IsFormed options σ := by
    refine isFormed_ofHoleyList.mpr fun x hx => hitems x ?_
    simpa using hx
  have hps := isFormed_of_converts hc hspreadless hlist
  exact ⟨isFormed_reduceOption (isFormed_ofHoleyList.mp hps), restLast_reduceOption hc.restLast⟩

/-- No literal begins with the word of a loop. -/
theorem not_isLoop_of_literal {l : Literal} (h : literal s = .ok l u) : s.kind.isLoop = false := by
  obtain ⟨value, hvalue, -, -⟩ := of_literal h
  cases hk : s.kind with
  | keyword word => cases word <;> first | rfl | simp [literalValue?, hk] at hvalue
  | _ => rfl

section Rules

/- The answers that a rule depends on obey the scope in which they are asked for. -/
variable (hd : ∀ g σ front s r u, s.Stands σ front → d g s = .ok r u →
  g.Obeys options σ front s r u)

include hd

theorem legal_callArguments {arguments : Node (.list .element)} (hs : s.Stands σ front)
    (h : suffixes.callArguments d s = .ok arguments u) :
    u.Stands σ front ∧ arguments.IsFormed options σ ∧ ∀ x ∈ arguments.toList,
      x.isRestElement = false := by
  obtain ⟨elements, hitems, rfl⟩ := of_callArguments h
  obtain ⟨hu, helements⟩ := hd _ _ _ _ _ _ hs hitems
  have hlegal := isFormed_reduceOption fun x hx => (helements x hx).1
  exact ⟨hu, isFormed_ofList.mpr hlegal,
    not_isRestElement_reduceOption fun x hx => (helements x hx).2⟩

theorem legal_suffixes {base : Expression} {start : Place} {noCalls : Bool} {r : Expression}
    (hs : s.Stands σ front) (hb : base.IsFormed options σ) (hstarts : base.Starts start)
    (h : Suffixes d base start noCalls s r u) :
    u.Stands σ front ∧ r.IsFormed options σ ∧ r.Starts start := by
  cases h with
  | done => exact ⟨hs, hb, hstarts⟩
  | name dot name_ok more =>
    have h₂ := stands_of_identifier (stands_of_takes hs dot) name_ok
    refine hd _ _ _ _ _ _ h₂ more ?_ (starts_of_span rfl nofun)
    exact isFormed_of_first ⟨trivial, ⟨_, rfl⟩, trivial, trivial⟩ rfl rfl hb
      (everywhere_name trivial trivial trivial rfl)
  | index opening property_ok closing more =>
    obtain ⟨h₂, hp, -⟩ := legal_expression hd (stands_of_takes hs opening) property_ok
    have h₃ := stands_of_takes h₂ closing
    exact hd _ _ _ _ _ _ h₃ more (isFormed_of_two (.free rfl) rfl hb hp)
      (starts_of_span rfl nofun)
  | call allowed opening arguments_ok more =>
    obtain ⟨h₂, harguments, hrest⟩ :=
      legal_callArguments hd (stands_of_takes hs opening) arguments_ok
    refine hd _ _ _ _ _ _ h₂ more ?_ (starts_of_span rfl nofun)
    exact isFormed_of_two ⟨hrest, trivial, trivial, trivial⟩ rfl hb harguments

theorem legal_listElement {holes : Bool} {pending : Pending} {r : Option Element × Pending}
    (hs : s.Stands σ front) (h : ListElement d holes pending s r u) :
    u.Stands σ front ∧ ∀ x, r.1 = some x → x.IsFormed options σ ∧ x.isRestElement = false := by
  cases h with
  | hole => exact ⟨hs, nofun⟩
  | spread dots argument_ok =>
    obtain ⟨hu, ha, -⟩ := hd _ _ _ _ _ _ (stands_of_takes hs dots) argument_ok
    refine ⟨hu, ?_⟩
    rintro x ⟨⟩
    exact ⟨isFormed_of_one (.free rfl) rfl ha, rfl⟩
  | item item_ok =>
    obtain ⟨hu, he, -⟩ := hd _ _ _ _ _ _ hs item_ok
    refine ⟨hu, ?_⟩
    rintro x ⟨⟩
    exact ⟨isFormed_of_one (.free rfl) rfl he, rfl⟩

theorem legal_elements {stop : TokenKind} {trailingComma holes isFirst : Bool} {pending : Pending}
    {r : List (Option Element) × Pending} (hs : s.Stands σ front)
    (h : Elements d stop trailingComma holes isFirst pending s r u) :
    u.Stands σ front ∧ ∀ x, some x ∈ r.1 → x.IsFormed options σ ∧ x.isRestElement = false := by
  cases h with
  | closed closing => exact ⟨stands_of_takes hs closing, nofun⟩
  | trailing comma closing => exact ⟨stands_of_takes (stands_of_separator hs comma) closing, nofun⟩
  | item comma item_ok more =>
    obtain ⟨h₂, helement⟩ := legal_listElement hd (stands_of_separator hs comma) item_ok
    obtain ⟨hu, hrest⟩ := hd _ _ _ _ _ _ h₂ more
    refine ⟨hu, fun x hx => ?_⟩
    rcases List.mem_cons.mp hx with hx | hx
    · exact helement x hx.symm
    · exact hrest x hx

theorem legal_parenthesized {isFirst : Bool} {pending : Pending} {r : List Element × Pending}
    (hs : s.Stands σ front) (h : Parenthesized d isFirst pending s r u) :
    u.Stands σ front ∧ (∀ x ∈ r.1, x.IsFormed options σ ∧ front ≤ x.span.start.offset) ∧
      (restAtEnd? r.1 = none → (expressionsOf r.1).length = r.1.length) := by
  cases h with
  | done => exact ⟨hs, nofun, fun _ => rfl⟩
  | rest comma dots rest_ok =>
    have h₁ := stands_of_separator hs comma
    obtain ⟨hu, ha, hplain⟩ := legal_restOfBinding h₁ rest_ok
    obtain ⟨s₂, id, -, -, he⟩ := of_restOfBinding rest_ok
    cases he
    refine ⟨hu, List.forall_mem_singleton.mpr
      ⟨isFormed_of_one ⟨hplain, trivial, trivial, trivial⟩ rfl ha, ?_⟩, nofun⟩
    exact Nat.le_trans h₁.behind
      (Nat.le_of_eq (congrArg Place.offset (ParseState.start_spanFrom _ _)).symm)
  | item comma item_ok more =>
    have h₁ := stands_of_separator hs comma
    obtain ⟨h₂, he, -, hle⟩ := hd _ _ _ _ _ _ h₁ item_ok
    obtain ⟨hu, hrest, hlength⟩ := hd _ _ _ _ _ _ h₂ more
    refine ⟨hu, List.forall_mem_cons.mpr ⟨⟨isFormed_of_one (.free rfl) rfl he, ?_⟩, hrest⟩,
      length_expressionsOf_cons hlength⟩
    exact Nat.le_trans h₁.behind hle

theorem legal_parenthesizedExpression {canBeArrow : Bool} {e : Expression}
    (hs : s.Stands σ front) (h : ParenthesizedExpression d s.place canBeArrow s e u) :
    u.Stands σ front ∧ e.IsFormed options σ ∧ e.Starts s.place := by
  have weaken : ∀ {t : ParseState}, t.Stands σ (s.place.offset + 1) → t.Stands σ front :=
    fun ht => ⟨ht.scope_eq, ht.placed,
      Nat.le_trans hs.behind (Nat.le_trans (Nat.le_succ _) ht.behind)⟩
  cases h with
  | arrow allowed opening items_ok closing patterns_ok legal arrow_ok =>
    have h₁ := stands_behind hs opening (by decide) (by decide)
    obtain ⟨h₂, hitems, -⟩ := hd _ _ _ _ _ _ h₁ items_ok
    obtain ⟨hparams, hlast⟩ :=
      isFormed_patternsOfElements patterns_ok legal fun x hx => (hitems x hx).1
    exact legal_arrow hd (weaken (stands_of_takes h₂ closing)) hparams hlast arrow_ok
  | single opening items_ok closing no_rest one =>
    -- The only item begins behind the parenthesis.
    have h₁ := stands_behind hs opening (by decide) (by decide)
    obtain ⟨h₂, hitems, -⟩ := hd _ _ _ _ _ _ h₁ items_ok
    have hvalues := isFormed_expressionsOf hitems
    rw [one] at hvalues
    obtain ⟨he, hlt⟩ := hvalues e List.mem_cons_self
    refine ⟨weaken (stands_of_takes h₂ closing), he, Nat.le_of_succ_le hlt, ?_⟩
    rintro _ _ _ _ rfl
    exact hlt
  | sequence opening items_ok closing nonempty no_rest many =>
    have h₁ := stands_behind hs opening (by decide) (by decide)
    obtain ⟨h₂, hitems, hlength⟩ := hd _ _ _ _ _ _ h₁ items_ok
    have hvalues := isFormed_ofList.mpr fun e he => (isFormed_expressionsOf hitems e he).1
    have htwo := two_le_length_of_many nonempty (hlength no_rest) many
    refine ⟨weaken (stands_of_takes h₂ closing), isFormed_of_one
      ⟨trivial, trivial, by rwa [HasForm, toList_ofList], trivial⟩ rfl hvalues, ?_, nofun⟩
    refine Nat.le_of_succ_le (Nat.le_trans h₁.behind (Nat.le_of_eq ?_))
    exact (congrArg Place.offset (Span.start_closing ..)).symm

theorem legal_parenthesis {canBeArrow : Bool} {e : Expression} (hs : s.Stands σ front)
    (h : Parenthesis d canBeArrow s e u) :
    u.Stands σ front ∧ e.IsFormed options σ ∧ e.Starts s.place := by
  cases h with
  | arrow allowed params_ok arrow_ok =>
    obtain ⟨s₁, opening, hparams, -, -⟩ := of_arrowParameters params_ok
    obtain ⟨h₁, hlegal, hlast⟩ := legal_parameters hd (stands_of_takes hs opening) hparams
    exact legal_arrow hd h₁ hlegal hlast arrow_ok
  | list no_params list_ok => exact legal_parenthesizedExpression hd hs list_ok

theorem legal_nameOrArrow {canBeArrow : Bool} {e : Expression} (hs : s.Stands σ front)
    (h : NameOrArrow d canBeArrow s e u) :
    u.Stands σ front ∧ e.IsFormed options σ ∧ e.Starts s.place := by
  cases h with
  | name name_ok =>
    obtain ⟨name, -, -, -, rfl⟩ := of_identifier name_ok
    exact ⟨stands_of_identifier hs name_ok,
      isFormed_identifier (not_keyword_of_identifier hs name_ok), starts_of_span rfl nofun⟩
  | arrow allowed name_ok arrow_ok =>
    have hname := not_keyword_of_identifier hs name_ok
    exact legal_arrow hd (stands_of_identifier hs name_ok)
      (List.forall_mem_singleton.mpr (isFormed_namePattern hname)) (restLast_singleton _) arrow_ok

theorem legal_newExpression {e : Expression} (hs : s.Stands σ front)
    (h : newExpression d s = .ok e u) :
    u.Stands σ front ∧ e.IsFormed options σ ∧ e.Starts s.place := by
  obtain ⟨s₁, atom, s₂, callee, s₃, arguments, word, atom_ok, callee_ok, harguments, rfl⟩ :=
    of_newExpression h
  obtain ⟨h₂, hatom, -, hstarts⟩ := hd _ _ _ _ _ _ (stands_of_advance hs word) atom_ok
  obtain ⟨h₃, hcallee, -⟩ := hd _ _ _ _ _ _ h₂ callee_ok hatom hstarts
  cases harguments with
  | none =>
    refine ⟨h₃, ?_, starts_of_span rfl nofun⟩
    exact isFormed_of_two ⟨nofun, trivial, trivial, trivial⟩ rfl hcallee
      (isFormed_leaf (.free rfl) rfl)
  | given opening arguments_ok =>
    obtain ⟨hu, hlegal, hrest⟩ := legal_callArguments hd (stands_of_takes h₃ opening) arguments_ok
    refine ⟨hu, ?_, starts_of_span rfl nofun⟩
    exact isFormed_of_two ⟨hrest, trivial, trivial, trivial⟩ rfl hcallee hlegal

theorem legal_chunks {r : List TemplateElement × List Expression} (hs : s.Stands σ front)
    (h : Chunks d s r u) :
    u.Stands σ front ∧ (∀ x ∈ r.2, x.IsFormed options σ) ∧ IsInterleaved r.1 r.2.length := by
  cases h with
  | last kind value chunk closing =>
    exact ⟨stands_of_advance hs chunk, nofun, [], _, rfl, rfl, nofun, rfl⟩
  | more kind value chunk opening value_ok closing more =>
    have h₂ := stands_of_takes (stands_of_advance hs chunk) opening
    obtain ⟨h₃, he, -⟩ := legal_expression hd h₂ value_ok
    obtain ⟨hu, hrest, front, last, rfl, hlength, hfront, hlast⟩ :=
      hd _ _ _ _ _ _ (stands_of_takes h₃ closing) more
    exact ⟨hu, List.forall_mem_cons.mpr ⟨he, hrest⟩, _ :: front, last, rfl,
      congrArg Nat.succ hlength, List.forall_mem_cons.mpr ⟨rfl, hfront⟩, hlast⟩

theorem legal_template {e : Expression} (hs : s.Stands σ front) (h : template d s = .ok e u) :
    u.Stands σ front ∧ e.IsFormed options σ ∧ e.Starts s.place := by
  obtain ⟨s₁, quasis, values, s₂, opening, chunks_ok, closing, rfl⟩ := of_template h
  obtain ⟨h₂, hvalues, hform⟩ := hd _ _ _ _ _ _ (stands_of_takes hs opening) chunks_ok
  refine ⟨stands_of_advance h₂ closing, isFormed_of_one ⟨trivial, trivial, ?_, trivial⟩ rfl
    (isFormed_ofList.mpr hvalues), starts_of_span rfl nofun⟩
  rwa [HasForm, toList_ofList]

theorem legal_shorthandProperty {start : Place} {id : Identifier} {pending : Pending}
    {r : Member × Pending} (hs : s.Stands σ front)
    (h : ShorthandProperty d start id pending s r u) :
    u.Stands σ front ∧ r.1.IsFormed options σ := by
  have hkey : Node.IsFormed options σ (.nameKey id) := isFormed_leaf (.free rfl) rfl
  cases h with
  | bare =>
    refine ⟨hs, ?_⟩
    exact isFormed_of_first ⟨trivial, ⟨id, rfl, .inl rfl⟩, trivial, trivial⟩ rfl rfl hkey
      (everywhere_name trivial trivial trivial rfl)
  | default eq value_ok =>
    obtain ⟨hu, hv, -⟩ := hd _ _ _ _ _ _ (stands_of_takes hs eq) value_ok
    refine ⟨hu, ?_⟩
    exact isFormed_of_first ⟨trivial, ⟨id, rfl, .inr ⟨_, _, rfl⟩⟩, trivial, trivial⟩ rfl rfl hkey
      (everywhere_of_name rfl nofun nofun rfl rfl hv)

theorem legal_memberKey {accessor : Option PropertyKind} {key : Key} (hs : s.Stands σ front)
    (h : MemberKey d s accessor key u) : u.Stands σ front ∧ key.IsFormed options σ := by
  cases h with
  | plain key_ok => exact legal_propertyName hd hs key_ok
  | accessor word_ok isAccessor key_ok =>
    obtain ⟨h₁, -⟩ := legal_propertyName hd hs word_ok
    exact legal_propertyName hd h₁ key_ok

theorem legal_property {pending : Pending} {r : Member × Pending} (hs : s.Stands σ front)
    (h : Property d pending s r u) : u.Stands σ front ∧ r.1.IsFormed options σ := by
  cases h with
  | method star key_ok exclusive method_ok =>
    obtain ⟨h₂, hkey⟩ := legal_memberKey hd (stands_of_eats hs star) key_ok
    obtain ⟨hu, hf⟩ := legal_method hd h₂ method_ok
    exact ⟨hu, isFormed_of_two (.free rfl) rfl hkey (isFormed_toExpression hf)⟩
  | value key_ok colon value_ok =>
    obtain ⟨h₁, hkey⟩ := legal_propertyName hd hs key_ok
    obtain ⟨hu, hv, -⟩ := hd _ _ _ _ _ _ (stands_of_takes h₁ colon) value_ok
    exact ⟨hu, isFormed_of_two (.free rfl) rfl hkey hv⟩
  | shorthand key_ok more =>
    obtain ⟨h₁, -⟩ := legal_propertyName hd hs key_ok
    exact legal_shorthandProperty hd h₁ more

theorem legal_members {isFirst : Bool} {pending : Pending} {r : List Member × Pending}
    (hs : s.Stands σ front) (h : Members d isFirst pending s r u) :
    u.Stands σ front ∧ ∀ x ∈ r.1, x.IsFormed options σ := by
  cases h with
  | closed closing => exact ⟨stands_of_takes hs closing, nofun⟩
  | trailing comma closing => exact ⟨stands_of_takes (stands_of_separator hs comma) closing, nofun⟩
  | item comma item_ok more =>
    have h₁ := stands_of_separator hs comma
    rename_i s₁ member between s₂ rest after _ _
    have hmember : s₂.Stands σ front ∧ member.IsFormed options σ := by
      cases item_ok with
      | spread dots argument_ok =>
        obtain ⟨h₂, ha, -⟩ := hd _ _ _ _ _ _ (stands_of_takes h₁ dots) argument_ok
        exact ⟨h₂, isFormed_of_one (.free rfl) rfl ha⟩
      | property property_ok => exact legal_property hd h₁ property_ok
    obtain ⟨hu, hrest⟩ := hd _ _ _ _ _ _ hmember.1 more
    exact ⟨hu, List.forall_mem_cons.mpr ⟨hmember.2, hrest⟩⟩

theorem legal_primary {pending : Pending} {r : Expression × Pending} (hs : s.Stands σ front)
    (h : Primary d pending s r u) :
    u.Stands σ front ∧ r.1.IsFormed options σ ∧ s.kind.isLoop = false ∧ r.1.Starts s.place := by
  have hkind : ∀ {k : TokenKind}, s.kind = k → k.isLoop = false → s.kind.isLoop = false :=
    fun hk hl => hk ▸ hl
  cases h with
  | name kind name_ok =>
    obtain ⟨hu, he, hstarts⟩ := legal_nameOrArrow hd hs name_ok
    exact ⟨hu, he, hkind kind rfl, hstarts⟩
  | this word =>
    exact ⟨stands_of_takes hs word, isFormed_leaf (.free rfl) rfl, hkind word.1 rfl,
      starts_of_span rfl nofun⟩
  | literal literal_ok =>
    have hform := hasForm_of_literal hs literal_ok
    obtain ⟨value, -, -, rfl⟩ := of_literal literal_ok
    exact ⟨stands_of_literal hs literal_ok, isFormed_leaf ⟨trivial, trivial, hform, trivial⟩ rfl,
      not_isLoop_of_literal literal_ok, starts_of_span rfl nofun⟩
  | parenthesis kind parenthesis_ok =>
    obtain ⟨hu, he, hstarts⟩ := legal_parenthesis hd hs parenthesis_ok
    exact ⟨hu, he, hkind kind rfl, hstarts⟩
  | array opening elements_ok =>
    obtain ⟨hu, helements⟩ := hd _ _ _ _ _ _ (stands_of_takes hs opening) elements_ok
    refine ⟨hu, isFormed_of_one ⟨?_, trivial, trivial, trivial⟩ rfl ?_, hkind opening.1 rfl,
      starts_of_span rfl nofun⟩
    · exact not_isRestElement_ofHoleyList fun x hx => (helements x hx).2
    · exact isFormed_ofHoleyList.mpr fun x hx => (helements x hx).1
  | object opening members_ok =>
    obtain ⟨hu, hmembers⟩ := hd _ _ _ _ _ _ (stands_of_takes hs opening) members_ok
    exact ⟨hu, isFormed_of_one (.free rfl) rfl (isFormed_ofList.mpr hmembers),
      hkind opening.1 rfl,
      starts_of_span rfl nofun⟩
  | function word function_ok =>
    have hfunction := of_function function_ok
    obtain ⟨hu, hf⟩ := legal_function hd (stands_of_takes hs word) hfunction
    cases hfunction
    exact ⟨hu, isFormed_toExpression hf, hkind word.1 rfl, starts_of_span rfl nofun⟩
  | template kind template_ok =>
    obtain ⟨hu, he, hstarts⟩ := legal_template hd hs template_ok
    exact ⟨hu, he, hkind kind rfl, hstarts⟩
  | new kind new_ok =>
    obtain ⟨hu, he, hstarts⟩ := legal_newExpression hd hs new_ok
    exact ⟨hu, he, hkind kind rfl, hstarts⟩

end Rules

end EcmaTree.Legality
