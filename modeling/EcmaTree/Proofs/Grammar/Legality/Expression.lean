import EcmaTree.Proofs.Grammar.Legality.Basic

/-!
# Legal targets, functions and operators

The scope of an expression is that of all its operands. A function reads its body in the scope
that the tree gives the body, because a directive has turned strict mode on before anything that
could depend on it.
-/

namespace EcmaTree.Legality

open EcmaTree.Parser EcmaTree.Grammar EcmaTree.Reading Node

variable {options : ParseOptions} {d : Descent} {σ : Scope} {front : Nat}
  {s u : ParseState}

theorem not_isLoop_of_isUnary {k : TokenKind} (h : k.isUnary = true) : k.isLoop = false := by
  cases k with
  | keyword word => cases word <;> first | rfl | cases h
  | _ => rfl

theorem isReference_of_isSimple {e : Expression} (h : IsSimple e) : e.isReference = true := by
  cases e <;> first | rfl | cases h

theorem isReference_of_converts {isBinding : Bool} {e : Expression} {p : Pattern}
    (h : Converts isBinding e p) (he : e.isReference = true) : p.isReference = true := by
  cases h <;> first | rfl | cases he

theorem legal_restOfBinding {span : Span} {argument : Pattern} (hs : s.Stands σ front)
    (h : restOfBinding s = .ok (span, argument) u) :
    u.Stands σ front ∧ argument.IsFormed options σ ∧
      argument.isDefault = false ∧ argument.isRest = false := by
  obtain ⟨s₁, id, dots, name_ok, he⟩ := of_restOfBinding h
  cases he
  have h₁ := stands_of_advance hs dots
  exact ⟨stands_of_identifier h₁ name_ok,
    isFormed_namePattern (not_keyword_of_identifier h₁ name_ok), rfl, rfl⟩

/-- The parts of a function are legal where the function stands. -/
structure PartsLegal (options : ParseOptions) (σ : Scope) (f : FunctionParts) : Prop where
  params : (ofList f.params).IsFormed options σ
  body : f.body.IsFormed options (σ.enter f.body.turnsStrict f.generator)
  binds : Binds (σ.strict || f.body.turnsStrict) f.id false (ofList f.params)
  not_keyword : ∀ name, f.id = some name → Keyword.ofWord? name.name = none
  prologue : IsPrologue f.body.content

theorem isFormed_toExpression {f : FunctionParts} (h : PartsLegal options σ f) :
    f.toExpression.IsFormed options σ :=
  isFormed_of_parts ⟨h.binds, h.not_keyword, h.prologue, trivial⟩
    (List.forall_mem_cons.mpr ⟨h.params, List.forall_mem_singleton.mpr h.body⟩)

theorem isFormed_toDeclaration {f : FunctionParts} (h : PartsLegal options σ f) :
    f.toDeclaration.IsFormed options σ :=
  isFormed_of_parts ⟨h.binds, h.not_keyword, h.prologue, trivial⟩
    (List.forall_mem_cons.mpr ⟨h.params, List.forall_mem_singleton.mpr h.body⟩)

section Rules

/- The answers that a rule depends on obey the scope in which they are asked for. -/
variable (hd : ∀ g σ front s r u, s.Stands σ front → d g s = .ok r u →
  g.Obeys options σ front s r u)

include hd

theorem legal_value {noIn : Bool} {e : Expression} (hs : s.Stands σ front)
    (h : d.value noIn s = .ok e u) : u.Stands σ front ∧ e.IsFormed options σ := by
  obtain ⟨after, h⟩ := of_value h
  obtain ⟨hu, he, -⟩ := hd _ _ _ _ _ _ hs h
  exact ⟨hu, he⟩

theorem legal_operand {e : Expression} (hs : s.Stands σ front) (h : d.operand s = .ok e u) :
    u.Stands σ front ∧ e.IsFormed options σ := by
  obtain ⟨hu, he, -⟩ := hd _ _ _ _ _ _ hs (of_operand h)
  exact ⟨hu, he⟩

theorem legal_propertyName {key : Key} (hs : s.Stands σ front) (h : PropertyName d s key u) :
    u.Stands σ front ∧ key.IsFormed options σ := by
  cases h with
  | computed opening key_ok closing =>
    obtain ⟨h₂, hkey⟩ := legal_value hd (stands_of_takes hs opening) key_ok
    exact ⟨stands_of_takes h₂ closing, isFormed_of_one (.free rfl) rfl hkey⟩
  | literal key_ok => exact ⟨stands_of_literal hs key_ok, isFormed_leaf (.free rfl) rfl⟩
  | name key_ok => exact ⟨stands_of_identifier hs key_ok, isFormed_leaf (.free rfl) rfl⟩

theorem legal_bindingAtom {p : Pattern} (hs : s.Stands σ front) (h : BindingAtom d s p u) :
    u.Stands σ front ∧ p.IsFormed options σ ∧ p.isRest = false ∧ p.isDefault = false := by
  cases h with
  | name name_ok =>
    have hname := not_keyword_of_identifier hs name_ok
    exact ⟨stands_of_identifier hs name_ok, isFormed_namePattern hname, rfl, rfl⟩
  | array opening items =>
    obtain ⟨hu, helements, hlast⟩ := hd _ _ _ _ _ _ (stands_of_takes hs opening) items
    exact ⟨hu, isFormed_of_one ⟨hlast, trivial, trivial, trivial⟩ rfl
      (isFormed_ofHoleyList.mpr helements), rfl, rfl⟩
  | object opening items =>
    obtain ⟨hu, hmembers, hlast⟩ := hd _ _ _ _ _ _ (stands_of_takes hs opening) items
    exact ⟨hu, isFormed_of_one ⟨hlast, trivial, trivial, trivial⟩ rfl
      (isFormed_ofList.mpr hmembers), rfl, rfl⟩

theorem legal_withDefault {start : Place} {target p : Pattern} (hs : s.Stands σ front)
    (ht : target.IsFormed options σ) (hr : target.isRest = false)
    (hplain : target.isDefault = false) (h : WithDefault d start target s p u) :
    u.Stands σ front ∧ p.IsFormed options σ ∧ p.isRest = false := by
  cases h with
  | given eq value_ok =>
    obtain ⟨hu, hv⟩ := legal_value hd (stands_of_takes hs eq) value_ok
    refine ⟨hu, isFormed_of_two ⟨hr, fun h => ?_, trivial, ht.proper⟩ rfl ht hv, rfl⟩
    exact absurd h (by simp [hplain])
  | bare => exact ⟨hs, ht, hr⟩

theorem legal_bindingElement {p : Pattern} (hs : s.Stands σ front)
    (h : bindingElement d s = .ok p u) :
    u.Stands σ front ∧ p.IsFormed options σ ∧ p.isRest = false := by
  obtain ⟨target, s₁, hatom, hdefault⟩ := of_bindingElement h
  obtain ⟨h₁, ht, hr, hplain⟩ := legal_bindingAtom hd hs hatom
  exact legal_withDefault hd h₁ ht hr hplain hdefault

theorem legal_targets {stop : TokenKind} {holes trailingComma isFirst : Bool}
    {r : List (Option Pattern)} (hs : s.Stands σ front)
    (h : Targets d stop holes trailingComma isFirst s r u) :
    u.Stands σ front ∧ (∀ x, some x ∈ r → x.IsFormed options σ) ∧ (ofHoleyList r).RestLast := by
  cases h with
  | closed closing => exact ⟨stands_of_takes hs closing, nofun, restLast_nil⟩
  | trailing comma closing =>
    exact ⟨stands_of_takes (stands_of_separator hs comma) closing, nofun, restLast_nil⟩
  | hole comma next more =>
    obtain ⟨hu, hrest, hlast⟩ := hd _ _ _ _ _ _ (stands_of_separator hs comma) more
    exact ⟨hu, fun x hx => hrest x (by simpa using hx), .cons rfl hlast⟩
  | rest comma dots rest_ok closing =>
    obtain ⟨h₂, hargument, hplain⟩ := legal_restOfBinding (stands_of_separator hs comma) rest_ok
    refine ⟨stands_of_takes h₂ closing, fun x hx => ?_, restLast_singleton _⟩
    cases List.mem_singleton.mp hx
    exact isFormed_of_one ⟨hplain, trivial, trivial, trivial⟩ rfl hargument
  | item comma item_ok more =>
    obtain ⟨h₂, htarget, hplain⟩ := legal_bindingElement hd (stands_of_separator hs comma) item_ok
    obtain ⟨hu, hrest, hlast⟩ := hd _ _ _ _ _ _ h₂ more
    refine ⟨hu, fun x hx => ?_, .cons hplain hlast⟩
    rcases List.mem_cons.mp hx with hx | hx
    · cases hx
      exact htarget
    · exact hrest x hx

/-- The name in the place of the value of a shorthand property may be a keyword. -/
theorem legal_shorthandValue {start : Place} {id : Identifier} {p : Pattern}
    (hs : s.Stands σ front) (h : WithDefault d start (.namePattern id) s p u) :
    u.Stands σ front ∧ p.Everywhere (Node.Abides options) σ ∧ p.isRest = false ∧
      (p = .namePattern id ∨ ∃ span v, p = .defaultPattern span (.namePattern id) v) := by
  cases h with
  | given eq value_ok =>
    obtain ⟨hu, hv⟩ := legal_value hd (stands_of_takes hs eq) value_ok
    exact ⟨hu, everywhere_of_name rfl nofun trivial rfl rfl hv, rfl, .inr ⟨_, _, rfl⟩⟩
  | bare => exact ⟨hs, everywhere_name trivial trivial trivial rfl, rfl, .inl rfl⟩

theorem legal_patternProperty {m : PatternMember} (hs : s.Stands σ front)
    (h : PatternProperty d s m u) : u.Stands σ front ∧ m.IsFormed options σ ∧ m.isRest = false := by
  cases h with
  | named key_ok colon value_ok =>
    obtain ⟨h₁, hkey⟩ := legal_propertyName hd hs key_ok
    obtain ⟨hu, hvalue, hplain⟩ := legal_bindingElement hd (stands_of_takes h₁ colon) value_ok
    exact ⟨hu, isFormed_of_two ⟨hplain, trivial, trivial, trivial⟩ rfl hkey hvalue, rfl⟩
  | shorthand key_ok value_ok =>
    obtain ⟨h₁, hkey⟩ := legal_propertyName hd hs key_ok
    obtain ⟨hu, hvalue, hplain, hshape⟩ := legal_shorthandValue hd h₁ value_ok
    exact ⟨hu, isFormed_of_first ⟨hplain, ⟨_, rfl, hshape⟩, trivial, trivial⟩ rfl rfl hkey hvalue,
      rfl⟩

theorem legal_patternMembers {isFirst : Bool} {r : List PatternMember} (hs : s.Stands σ front)
    (h : PatternMembers d isFirst s r u) :
    u.Stands σ front ∧ (∀ x ∈ r, x.IsFormed options σ) ∧ (ofList r).RestLast := by
  cases h with
  | closed closing => exact ⟨stands_of_takes hs closing, nofun, restLast_nil⟩
  | trailing comma closing =>
    exact ⟨stands_of_takes (stands_of_separator hs comma) closing, nofun, restLast_nil⟩
  | rest comma dots rest_ok closing =>
    obtain ⟨h₂, hargument, hplain⟩ := legal_restOfBinding (stands_of_separator hs comma) rest_ok
    refine ⟨stands_of_takes h₂ closing, List.forall_mem_singleton.mpr ?_, restLast_singleton _⟩
    exact isFormed_of_one ⟨hplain, trivial, trivial, trivial⟩ rfl hargument
  | item comma item_ok more =>
    obtain ⟨h₂, hmember, hplain⟩ :=
      legal_patternProperty hd (stands_of_separator hs comma) item_ok
    obtain ⟨hu, hrest, hlast⟩ := hd _ _ _ _ _ _ h₂ more
    exact ⟨hu, List.forall_mem_cons.mpr ⟨hmember, hrest⟩, .cons hplain hlast⟩

/-- The statements of a body stand in the scope that their directives lead to. -/
theorem legal_block {b : Block} (hs : s.Stands σ front) (h : block d true s = .ok b u) :
    u.Stands { σ with strict := σ.strict || b.turnsStrict } front ∧
      b.IsFormed options u.scope ∧ IsPrologue b.content := by
  obtain ⟨s₁, body, opening, hbody, rfl⟩ := of_block h
  obtain ⟨hu, hlegal, -, hprologue⟩ := hd _ _ _ _ _ _ (stands_of_takes hs opening) hbody
  refine ⟨?_, isFormed_of_one (.free rfl) rfl (isFormed_ofList.mpr hlegal), ?_⟩
  · rwa [turnsStrict, toList_ofList]
  · rw [content, toList_ofList]
    exact hprologue rfl

theorem legal_parameters {params : List Pattern} (hs : s.Stands σ front)
    (h : parameters d s = .ok params u) :
    u.Stands σ front ∧ (∀ p ∈ params, p.IsFormed options σ) ∧ (ofList params).RestLast := by
  obtain ⟨targets, ht, rfl⟩ := of_parameters h
  obtain ⟨hu, htargets, hlast⟩ := hd _ _ _ _ _ _ hs ht
  exact ⟨hu, isFormed_reduceOption htargets, restLast_reduceOption hlast⟩

omit hd in
/-- What the body of a function has come to is what the function binds in the scope of its body. -/
theorem binds_of_functionBody {c : Category} (Q : Node c → Prop) {id : Option Identifier}
    {params : List Pattern} {generator isArrow : Bool} {body : Parser (Node c)} {b : Node c}
    (hs : s.Stands σ front) (hlast : (ofList params).RestLast)
    (hbody : ∀ {t t' : ParseState} {τ : Scope}, t.Stands τ front → body t = .ok b t' →
      t'.Stands { τ with strict := τ.strict || b.turnsStrict } front ∧
        b.IsFormed options t'.scope ∧ Q b)
    (h : FunctionBody id params generator isArrow body s b u) :
    u.Stands σ front ∧ b.IsFormed options (σ.enter b.turnsStrict generator) ∧
      Binds (σ.strict || b.turnsStrict) id isArrow (ofList params) ∧ Q b := by
  obtain ⟨body_ok, name_ok, params_ok⟩ := h
  obtain ⟨rfl, hplaced, hbehind⟩ := hs
  have hin : (s.enterFunction generator).Stands (s.enterFunction generator).scope front :=
    ⟨rfl, hplaced, hbehind⟩
  obtain ⟨ht, hb, hq⟩ := hbody hin body_ok
  have hscope : _ = s.scope.enter b.turnsStrict generator := ht.scope_eq
  refine ⟨⟨rfl, ht.placed, ht.behind⟩, hscope ▸ hb, ?_, hq⟩
  rw [hscope] at name_ok params_ok
  exact ⟨name_ok, by rwa [toList_ofList], hlast⟩

theorem legal_function {start : Place} {isDeclaration : Bool} {f : FunctionParts}
    (hs : s.Stands σ front) (h : Function d start isDeclaration s f u) :
    u.Stands σ front ∧ PartsLegal options σ f := by
  cases h with
  | intro star name opening params_ok body_ok =>
    have h₁ := stands_of_eats hs star
    rename_i s₁ id s₂ s₃ params s₄ body
    obtain ⟨h₂, hname⟩ : s₂.Stands σ front ∧
        ∀ name, id = some name → Keyword.ofWord? name.name = none := by
      cases name with
      | named name_ok =>
        refine ⟨stands_of_identifier h₁ name_ok, ?_⟩
        rintro name ⟨⟩
        exact not_keyword_of_identifier h₁ name_ok
      | anonymous => exact ⟨h₁, nofun⟩
    obtain ⟨h₄, hparams, hlast⟩ := legal_parameters hd (stands_of_takes h₂ opening) params_ok
    obtain ⟨hu, hbody, hbinds, hprologue⟩ :=
      binds_of_functionBody (fun b => IsPrologue b.content) h₄ hlast
        (fun ht hb => legal_block hd ht hb) body_ok
    exact ⟨hu, isFormed_ofList.mpr hparams, hbody, hbinds, hname, hprologue⟩

theorem legal_method {generator : Bool} {f : FunctionParts} (hs : s.Stands σ front)
    (h : method d generator s = .ok f u) : u.Stands σ front ∧ PartsLegal options σ f := by
  obtain ⟨s₁, s₂, params, body, opening, params_ok, body_ok, rfl⟩ := of_method h
  obtain ⟨h₂, hparams, hlast⟩ := legal_parameters hd (stands_of_takes hs opening) params_ok
  obtain ⟨hu, hbody, hbinds, hprologue⟩ :=
    binds_of_functionBody (fun b => IsPrologue b.content) h₂ hlast
      (fun ht hb => legal_block hd ht hb) body_ok
  exact ⟨hu, isFormed_ofList.mpr hparams, hbody, hbinds, nofun, hprologue⟩

theorem legal_arrowBody {b : Body} (hs : s.Stands σ front) (h : arrowBody d s = .ok b u) :
    u.Stands { σ with strict := σ.strict || b.turnsStrict } front ∧
      b.IsFormed options u.scope := by
  cases of_arrowBody h with
  | block block_ok =>
    obtain ⟨hu, hblock, hprologue⟩ := legal_block hd hs block_ok
    exact ⟨hu, isFormed_of_one ⟨trivial, trivial, hprologue, trivial⟩ rfl hblock⟩
  | concise value_ok =>
    obtain ⟨hu, hvalue⟩ := legal_value hd hs value_ok
    rw [hu.scope_eq]
    exact ⟨by simpa [turnsStrict] using hu, isFormed_of_one (.free rfl) rfl hvalue⟩

theorem legal_arrow {start : Place} {params : List Pattern} {e : Expression}
    (hs : s.Stands σ front) (hparams : ∀ p ∈ params, p.IsFormed options σ)
    (hlast : (ofList params).RestLast) (h : arrow d start params s = .ok e u) :
    u.Stands σ front ∧ e.IsFormed options σ ∧ e.Starts start := by
  obtain ⟨s₁, body, word, body_ok, rfl⟩ := of_arrow h
  obtain ⟨hu, hbody, hbinds, -⟩ := binds_of_functionBody (fun _ => True) (stands_of_takes hs word)
    hlast (fun ht hb => by simpa using legal_arrowBody hd ht hb) body_ok
  refine ⟨hu, isFormed_of_parts ⟨hbinds, trivial, trivial, trivial⟩ ?_, starts_of_span rfl nofun⟩
  exact List.forall_mem_cons.mpr
    ⟨isFormed_ofList.mpr hparams, List.forall_mem_singleton.mpr hbody⟩

theorem legal_expressionWith {noIn owned : Bool} {pending : Pending} {r : Expression × Pending}
    (hs : s.Stands σ front) (h : ExpressionWith d noIn owned pending s r u) :
    u.Stands σ front ∧ r.1.IsFormed options σ ∧ s.kind.isLoop = false := by
  cases h with
  | single first last =>
    obtain ⟨hu, he, hk, -⟩ := hd _ _ _ _ _ _ hs first
    exact ⟨hu, he, hk⟩
  | sequence first comma more =>
    obtain ⟨h₁, he, hk, -⟩ := hd _ _ _ _ _ _ hs first
    obtain ⟨hu, hrest, hmany⟩ := hd _ _ _ _ _ _ h₁ more
    refine ⟨hu, isFormed_of_one ⟨trivial, trivial, ?_, trivial⟩ rfl ?_, hk⟩
    · rw [HasForm, toList_ofList, List.length_cons]
      exact Nat.succ_le_succ (List.length_pos_iff.mpr (hmany comma))
    · exact isFormed_ofList.mpr (List.forall_mem_cons.mpr ⟨he, hrest⟩)

theorem legal_expression {noIn : Bool} {e : Expression} (hs : s.Stands σ front)
    (h : expression d noIn s = .ok e u) :
    u.Stands σ front ∧ e.IsFormed options σ ∧ s.kind.isLoop = false := by
  obtain ⟨after, h⟩ := of_expression h
  exact legal_expressionWith hd hs h

theorem legal_commaOperands {noIn owned : Bool} {pending : Pending}
    {r : List Expression × Pending} (hs : s.Stands σ front)
    (h : CommaOperands d noIn owned pending s r u) :
    u.Stands σ front ∧ (∀ x ∈ r.1, x.IsFormed options σ) ∧ (s.kind = .comma → r.1 ≠ []) := by
  cases h with
  | done last => exact ⟨hs, nofun, fun comma => absurd comma last⟩
  | operand comma first more =>
    obtain ⟨h₂, he, -⟩ := hd _ _ _ _ _ _ (stands_of_takes hs comma) first
    obtain ⟨hu, hrest, -⟩ := hd _ _ _ _ _ _ h₂ more
    exact ⟨hu, List.forall_mem_cons.mpr ⟨he, hrest⟩, fun _ => List.cons_ne_nil _ _⟩

theorem legal_yieldExpression {noIn : Bool} {e : Expression} (hs : s.Stands σ front)
    (hg : σ.inGenerator = true) (h : YieldExpression d noIn s e u) :
    u.Stands σ front ∧ e.IsFormed options σ ∧ e.Starts s.place := by
  cases h with
  | alone word =>
    refine ⟨stands_of_advance hs word, isFormed_of_one ⟨hg, trivial, trivial, trivial⟩ rfl ?_,
      starts_of_span rfl nofun⟩
    exact isFormed_leaf (.free rfl) rfl
  | argument word star argument =>
    obtain ⟨hu, he⟩ := legal_value hd (stands_of_eats (stands_of_advance hs word) star) argument
    exact ⟨hu, isFormed_of_one ⟨hg, trivial, trivial, trivial⟩ rfl
      (isFormed_of_one (.free rfl) rfl he), starts_of_span rfl nofun⟩

theorem legal_unaryExpression {e : Expression} (hs : s.Stands σ front)
    (h : UnaryExpression d s e u) :
    u.Stands σ front ∧ e.IsFormed options σ ∧ e.Starts s.place := by
  cases h with
  | update word argument_ok kind simple spelling legal =>
    obtain ⟨hu, he⟩ := legal_operand hd (stands_of_advance hs word) argument_ok
    have hform := isReference_of_isSimple simple
    exact ⟨hu, isFormed_of_one ⟨trivial, hu.scope_eq ▸ legal, hform, trivial⟩ rfl he,
      starts_of_span rfl nofun⟩
  | unary word argument_ok spelling legal =>
    obtain ⟨hu, he⟩ := legal_operand hd (stands_of_advance hs word) argument_ok
    exact ⟨hu, isFormed_of_one ⟨trivial, hu.scope_eq ▸ legal, trivial, trivial⟩ rfl he,
      starts_of_span rfl nofun⟩

omit hd in
theorem legal_trailingUpdate {start : Place} {e r : Expression} (hs : s.Stands σ front)
    (he : e.IsFormed options σ) (hstarts : e.Starts start) (h : TrailingUpdate start e s r u) :
    u.Stands σ front ∧ r.IsFormed options σ ∧ r.Starts start := by
  cases h with
  | bare => exact ⟨hs, he, hstarts⟩
  | update kind simple spelling word legal =>
    exact ⟨stands_of_advance hs word, isFormed_of_one ⟨trivial, hs.scope_eq ▸ legal,
      isReference_of_isSimple simple, trivial⟩ rfl he,
      starts_of_span rfl nofun⟩

theorem legal_leftHandSide {pending : Pending} {r : Expression × Pending} (hs : s.Stands σ front)
    (h : LeftHandSide d pending s r u) :
    u.Stands σ front ∧ r.1.IsFormed options σ ∧ s.kind.isLoop = false ∧ r.1.Starts s.place := by
  cases h with
  | atom atom_ok ends => exact hd _ _ _ _ _ _ hs atom_ok
  | suffixed atom_ok more =>
    obtain ⟨h₁, he, hk, hstarts⟩ := hd _ _ _ _ _ _ hs atom_ok
    obtain ⟨hu, hr, hstarts⟩ := hd _ _ _ _ _ _ h₁ more he hstarts
    exact ⟨hu, hr, hk, hstarts⟩

theorem legal_unary {pending : Pending} {r : Expression × Pending} (hs : s.Stands σ front)
    (h : Unary d pending s r u) :
    u.Stands σ front ∧ r.1.IsFormed options σ ∧ s.kind.isLoop = false ∧ r.1.Starts s.place := by
  cases h with
  | operator kind unary_ok =>
    obtain ⟨hu, he, hstarts⟩ := legal_unaryExpression hd hs unary_ok
    exact ⟨hu, he, not_isLoop_of_isUnary kind, hstarts⟩
  | pending left_ok => exact legal_leftHandSide hd hs left_ok
  | trailing left_ok more =>
    obtain ⟨h₁, he, hk, hstarts⟩ := legal_leftHandSide hd hs left_ok
    obtain ⟨hu, hr, hstarts⟩ := legal_trailingUpdate h₁ he hstarts more
    exact ⟨hu, hr, hk, hstarts⟩

theorem legal_operators {left : Expression} {start : Place} {floor : Nat} {noIn : Bool}
    {r : Expression} (hs : s.Stands σ front) (hl : left.IsFormed options σ)
    (hstarts : left.Starts start) (h : Operators d left start floor noIn s r u) :
    u.Stands σ front ∧ r.IsFormed options σ ∧ r.Starts start := by
  cases h with
  | done => exact ⟨hs, hl, hstarts⟩
  | operator kind tight notIn word operand_ok right_ok joined more =>
    obtain ⟨h₂, ho, -, ho'⟩ := hd _ _ _ _ _ _ (stands_of_advance hs word) (of_operand operand_ok)
    obtain ⟨h₃, hr, -⟩ := hd _ _ _ _ _ _ h₂ right_ok ho ho'
    cases joined with
    | logical =>
      exact hd _ _ _ _ _ _ h₃ more (isFormed_of_two (.free rfl) rfl hl hr)
        (starts_of_span rfl nofun)
    | binary =>
      exact hd _ _ _ _ _ _ h₃ more (isFormed_of_two (.free rfl) rfl hl hr)
        (starts_of_span rfl nofun)

theorem legal_binary {noIn : Bool} {pending : Pending} {r : Expression × Pending}
    (hs : s.Stands σ front) (h : Binary d noIn pending s r u) :
    u.Stands σ front ∧ r.1.IsFormed options σ ∧ s.kind.isLoop = false ∧ r.1.Starts s.place := by
  cases h with
  | operand first ends => exact hd _ _ _ _ _ _ hs first
  | operators first more =>
    obtain ⟨h₁, he, hk, hstarts⟩ := hd _ _ _ _ _ _ hs first
    obtain ⟨hu, hr, hstarts⟩ := hd _ _ _ _ _ _ h₁ more he hstarts
    exact ⟨hu, hr, hk, hstarts⟩

theorem legal_conditional {noIn : Bool} {pending : Pending} {r : Expression × Pending}
    (hs : s.Stands σ front) (h : Conditional d noIn pending s r u) :
    u.Stands σ front ∧ r.1.IsFormed options σ ∧ s.kind.isLoop = false ∧ r.1.Starts s.place := by
  cases h with
  | plain test_ok ends => exact legal_binary hd hs test_ok
  | choice test_ok question consequent_ok colon alternate_ok =>
    obtain ⟨h₁, ht, hk, -⟩ := legal_binary hd hs test_ok
    obtain ⟨h₃, hc⟩ := legal_value hd (stands_of_takes h₁ question) consequent_ok
    obtain ⟨hu, ha⟩ := legal_value hd (stands_of_takes h₃ colon) alternate_ok
    exact ⟨hu, isFormed_of_three (.free rfl) rfl ht hc ha, hk, starts_of_span rfl nofun⟩

omit hd in
theorem stands_markArrow (hs : s.Stands σ front) : s.markArrow.Stands σ front := by
  obtain ⟨hscope, hplaced, hbehind⟩ := hs
  have hplace : s.markArrow.place = s.place :=
    congrArg (fun stream => stream.token.span.start) (ParseState.stream_markArrow s)
  exact ⟨by rwa [ParseState.scope_markArrow], by rwa [ParseState.stream_markArrow],
    by rwa [hplace]⟩

theorem legal_assignment {noIn owned : Bool} {outer : Pending} {r : Expression × Pending}
    (hs : s.Stands σ front) (h : Assignment d noIn owned outer s r u) :
    u.Stands σ front ∧ r.1.IsFormed options σ ∧ s.kind.isLoop = false ∧
      s.place.offset ≤ r.1.span.start.offset := by
  have hmark := stands_markArrow hs
  have hkind : s.markArrow.kind = s.kind :=
    congrArg (fun stream => stream.token.kind) (ParseState.stream_markArrow s)
  have hplace : s.markArrow.place = s.place :=
    congrArg (fun stream => stream.token.span.start) (ParseState.stream_markArrow s)
  cases h with
  | yield scope word yield_ok =>
    obtain ⟨hu, he, hstarts⟩ := legal_yieldExpression hd hs (hs.scope_eq ▸ scope) yield_ok
    refine ⟨hu, he, ?_, hstarts.start_le⟩
    have hk : s.kind = .name := by
      simp [ParseState.isWord] at word
      exact word.1
    rw [hk]
    rfl
  | plain left_ok last settled =>
    obtain ⟨hu, he, hk, hstarts⟩ := legal_conditional hd hmark (of_conditional left_ok)
    exact ⟨hu, he, hkind ▸ hk, hplace ▸ hstarts.start_le⟩
  | assign left_ok kind spelling simple target_ok legal word value_ok =>
    obtain ⟨h₁, hl, hk, hstarts⟩ := legal_conditional hd hmark (of_conditional left_ok)
    obtain ⟨hu, hv⟩ := legal_value hd (stands_of_advance h₁ word) value_ok
    have hc := converts_of_toPattern target_ok
    have htarget := isFormed_of_converts hc (isSpreadless_of_check legal) hl
    rw [hplace] at hstarts
    refine ⟨hu, ?_, hkind ▸ hk, ?_⟩
    · refine isFormed_of_two
        ⟨hc.not_isRest, fun hdefault => ?_, fun hne => ?_, ?_⟩ rfl htarget hv
      · rw [ParseState.start_spanFrom]
        exact lt_of_converts_default hc hstarts hdefault
      · exact isReference_of_converts hc (isReference_of_isSimple (simple hne))
      · exact ⟨h₁.scope_eq ▸ legal, htarget.proper⟩
    · exact Nat.le_of_eq (congrArg Place.offset (ParseState.start_spanFrom _ _)).symm

end Rules

end EcmaTree.Legality
