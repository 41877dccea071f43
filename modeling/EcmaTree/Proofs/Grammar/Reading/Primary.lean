import EcmaTree.Proofs.Grammar.Reading.Expression

/-!
# What the rules for operands have read

A list in brackets, braces or parentheses hands a shorthand default from item to item, so
each predicate names the default before and after. What a parenthesis begins is read as
parameters first and as a list only if that has failed.
-/

namespace EcmaTree.Reading

open EcmaTree.Parser EcmaTree.Grammar

variable {d : Descent} {s u : ParseState}

/-- How the suffixes of an expression are read. -/
inductive Suffixes (d : Descent) (base : Expression) (start : Place) (noCalls : Bool)
    (s : ParseState) : Expression → ParseState → Prop
  | done (none_follows : s.kind ≠ .dot ∧ s.kind ≠ .bracketL ∧
        (noCalls = false → s.kind ≠ .parenL)) :
      Suffixes d base start noCalls s base s
  | name {s₁ name s₂ r u} (dot : Takes .dot s s₁) (name_ok : identifier true s₁ = .ok name s₂)
      (more : d (.suffixes (.member (s₂.spanFrom start) base (.identifier name) false) start
        noCalls) s₂ = .ok r u) : Suffixes d base start noCalls s r u
  | index {s₁ property s₂ s₃ r u} (opening : Takes .bracketL s s₁)
      (property_ok : expression d false s₁ = .ok property s₂) (closing : Takes .bracketR s₂ s₃)
      (more : d (.suffixes (.member (s₃.spanFrom start) base property true) start noCalls) s₃ =
        .ok r u) : Suffixes d base start noCalls s r u
  | call {s₁ arguments s₂ r u} (allowed : noCalls = false) (opening : Takes .parenL s s₁)
      (arguments_ok : suffixes.callArguments d s₁ = .ok arguments s₂)
      (more : d (.suffixes (.call (s₂.spanFrom start) base arguments) start noCalls) s₂ =
        .ok r u) : Suffixes d base start noCalls s r u

theorem of_suffixes {base : Expression} {start : Place} {noCalls : Bool} {r : Expression}
    (h : suffixes d base start noCalls s = .ok r u) : Suffixes d base start noCalls s r u := by
  simp only [suffixes, ite_bind] at h
  simp at h
  rcases h with ⟨hd, ⟨hb, hp⟩ | ⟨s₁, ht, property, s₂, hp, s₃, ht', h⟩⟩ | ⟨s₁, ht, name, s₂, hn, h⟩
  · rcases hp with ⟨hp, rfl⟩ | ⟨s₁, ⟨hn, ht⟩, arguments, s₂, harg, h⟩
    · obtain rfl : u = s := by grind
      exact .done ⟨hd, hb, by grind⟩
    · exact .call hn ht harg h
  · exact .index ht hp ht' h
  · exact .name ht hn h

theorem of_callArguments {arguments : Node (.list .element)}
    (h : suffixes.callArguments d s = .ok arguments u) :
    ∃ elements, d (.elements .parenR true false true none) s = .ok (elements, none) u ∧
      arguments = .ofList elements.reduceOption := by
  simpa [suffixes.callArguments] using h

theorem of_spread {pending : Pending} {r : (Span × Expression) × Pending}
    (h : spread d pending s = .ok r u) :
    ∃ s₁ argument after, advance s = .ok () s₁ ∧
      d (.assignment false false pending) s₁ = .ok (argument, after) u ∧
      r = ((u.spanFrom s.place, argument), after) := by
  simp [spread] at h
  obtain ⟨s₁, ha, argument, after, h, rfl⟩ := h
  exact ⟨s₁, argument, after, ha, h, rfl⟩

/-- How one element of a list is read. -/
inductive ListElement (d : Descent) (holes : Bool) (pending : Pending) (s : ParseState) :
    Option Element × Pending → ParseState → Prop
  | hole (allowed : holes = true) (next : s.kind = .comma) :
      ListElement d holes pending s (none, pending) s
  | spread {s₁ argument after u} (dots : Takes .ellipsis s s₁)
      (argument_ok : d (.assignment false false pending) s₁ = .ok (argument, after) u) :
      ListElement d holes pending s (some (.spread (u.spanFrom s.place) argument), after) u
  | item {e after u} (item_ok : d (.assignment false false pending) s = .ok (e, after) u)
      (plain : s.kind ≠ .ellipsis) (present : holes = true → s.kind ≠ .comma) :
      ListElement d holes pending s (some (.item e), after) u

theorem of_element {holes : Bool} {pending : Pending} {r : Option Element × Pending}
    (h : elements.element d holes pending s = .ok r u) : ListElement d holes pending s r u := by
  simp only [elements.element, ite_bind] at h
  simp at h
  rcases h with ⟨s₁, hh, h⟩ | ⟨⟨hh, hk, rfl⟩, rfl⟩
  · obtain ⟨rfl, hpresent⟩ : s₁ = s ∧ (holes = true → s.kind ≠ .comma) := by grind
    rcases h with ⟨hk, span, argument, after, h, rfl⟩ | ⟨hplain, e, after, h, rfl⟩
    · obtain ⟨s₂, argument, after, ha, h, ⟨⟩⟩ := of_spread h
      exact .spread ⟨hk, ha⟩ h
    · exact .item h hplain hpresent
  · exact .hole hh hk

/-- How the rest of a list of elements is read. -/
inductive Elements (d : Descent) (stop : TokenKind) (trailingComma holes isFirst : Bool)
    (pending : Pending) (s : ParseState) : List (Option Element) × Pending → ParseState → Prop
  | closed {u : ParseState} (closing : Takes stop s u) :
      Elements d stop trailingComma holes isFirst pending s ([], pending) u
  | trailing {s₁ u} (comma : Separator isFirst s s₁) (closing : Takes stop s₁ u) :
      Elements d stop trailingComma holes isFirst pending s ([], pending) u
  | item {s₁ element between s₂ rest after u} (comma : Separator isFirst s s₁)
      (item_ok : ListElement d holes pending s₁ (element, between) s₂)
      (more : d (.elements stop trailingComma holes false between) s₂ = .ok (rest, after) u)
      (opens : s.kind ≠ stop) (goesOn : isFirst = false → trailingComma = true → s₁.kind ≠ stop) :
      Elements d stop trailingComma holes isFirst pending s (element :: rest, after) u

theorem of_elements {stop : TokenKind} {trailingComma holes isFirst : Bool} {pending : Pending}
    {r : List (Option Element) × Pending}
    (h : elements d stop trailingComma holes isFirst pending s = .ok r u) :
    Elements d stop trailingComma holes isFirst pending s r u := by
  simp only [elements, ite_bind, unless_bind] at h
  simp [← separator_iff] at h
  rcases h with ⟨hopens, s₁, hc, ⟨s₂, hs, element, between, s₃, h, rest, after, h', rfl⟩ |
    ⟨⟨-, ht⟩, rfl⟩⟩ | ⟨ht, rfl⟩
  · obtain ⟨rfl, hgoesOn⟩ : s₂ = s₁ ∧
        (isFirst = false → trailingComma = true → s₁.kind ≠ stop) := by grind
    exact .item hc (of_element h) h' hopens hgoesOn
  · exact .trailing hc ht
  · exact .closed ht

theorem of_arrowParameters {params : List Pattern} (h : arrowParameters d s = .ok params u) :
    ∃ s₁, Takes .parenL s s₁ ∧ parameters d s₁ = .ok params u ∧ u.endsStatement = false ∧
      u.kind = .arrow := by
  simpa [arrowParameters] using h

/-- How the items of a parenthesized list are read. -/
inductive Parenthesized (d : Descent) (isFirst : Bool) (pending : Pending) (s : ParseState) :
    List Element × Pending → ParseState → Prop
  | done (closing : s.kind = .parenR) : Parenthesized d isFirst pending s ([], pending) s
  | rest {s₁ span argument u} (comma : Separator isFirst s s₁) (dots : s₁.kind = .ellipsis)
      (rest_ok : restOfBinding s₁ = .ok (span, argument) u) :
      Parenthesized d isFirst pending s ([.rest span argument], pending) u
  | item {s₁ value between s₂ rest after u} (comma : Separator isFirst s s₁)
      (item_ok : d (.assignment false false pending) s₁ = .ok (value, between) s₂)
      (more : d (.parenthesized false between) s₂ = .ok (rest, after) u)
      (opens : s.kind ≠ .parenR) (plain : s₁.kind ≠ .ellipsis) :
      Parenthesized d isFirst pending s (.item value :: rest, after) u

theorem of_parenthesized {isFirst : Bool} {pending : Pending} {r : List Element × Pending}
    (h : parenthesized d isFirst pending s = .ok r u) :
    Parenthesized d isFirst pending s r u := by
  simp [parenthesized] at h
  rcases h with ⟨hk, rfl, rfl⟩ | ⟨ho, ⟨rfl, h⟩ | ⟨rfl, s₁, ht, -, h⟩⟩
  · exact .done hk
  · rcases h with ⟨hk, span, argument, h, rfl⟩ | ⟨hn, value, between, s₂, h, rest, after, h', rfl⟩
    · exact .rest (.first _) hk h
    · exact .item (.first _) h h' ho hn
  · rcases h with ⟨hk, span, argument, h, rfl⟩ | ⟨hn, value, between, s₂, h, rest, after, h', rfl⟩
    · exact .rest (.comma ht) hk h
    · exact .item (.comma ht) h h' ho hn

@[simp]
theorem seesArrow_eq_ok {b : Bool} :
    parenthesizedExpression.seesArrow s = .ok b u ↔
      b = (!s.endsStatement && s.kind == .arrow) ∧ u = s := by
  simp only [parenthesizedExpression.seesArrow, bind_eq_ok, kind_eq_ok, canInsertSemicolon_eq_ok,
    pure_eq_ok, ↓existsAndEq, true_and]

/-- How a parenthesized list is read that is no arrow function at first sight. -/
inductive ParenthesizedExpression (d : Descent) (start : Place) (canBeArrow : Bool)
    (s : ParseState) : Expression → ParseState → Prop
  | arrow {s₁ items pending s₂ s₃ patterns e u} (allowed : canBeArrow = true)
      (opening : Takes .parenL s s₁)
      (items_ok : d (.parenthesized true none) s₁ = .ok (items, pending) s₂)
      (closing : Takes .parenR s₂ s₃)
      (patterns_ok : patternsOfElements (items.map some) true = .ok patterns)
      (legal : Pattern.checkAll s₃.scope.strict true (some []) patterns.reduceOption = .ok ())
      (arrow_ok : arrow d start patterns.reduceOption s₃ = .ok e u)
      (sameLine : s₃.endsStatement = false) : ParenthesizedExpression d start canBeArrow s e u
  | single {s₁ items s₂ value u} (opening : Takes .parenL s s₁)
      (items_ok : d (.parenthesized true none) s₁ = .ok (items, none) s₂)
      (closing : Takes .parenR s₂ u) (no_rest : restAtEnd? items = none)
      (one : expressionsOf items = [value]) :
      ParenthesizedExpression d start canBeArrow s value u
  | sequence {s₁ items s₂ u} (opening : Takes .parenL s s₁)
      (items_ok : d (.parenthesized true none) s₁ = .ok (items, none) s₂)
      (closing : Takes .parenR s₂ u) (nonempty : items ≠ []) (no_rest : restAtEnd? items = none)
      (many : (expressionsOf items).length ≠ 1) :
      ParenthesizedExpression d start canBeArrow s
        (.sequence (Span.closing s₁.place (s₂.lastEnd s₁.place)) (.ofList (expressionsOf items))) u

theorem of_parenthesizedExpression {start : Place} {canBeArrow : Bool} {e : Expression}
    (h : parenthesizedExpression d start canBeArrow s = .ok e u) :
    ParenthesizedExpression d start canBeArrow s e u := by
  simp only [parenthesizedExpression, ite_bind] at h
  simp at h
  obtain ⟨s₁, ht, items, pending, s₂, hi, s₃, ht',
    ⟨s₄, hs, h⟩ | ⟨⟨hc, hline, -⟩, ps, hp, hl, ha⟩⟩ := h
  · obtain rfl : s₄ = s₃ := by grind
    rw [run_eq_ok] at h
    obtain ⟨m, hm, h⟩ := h
    split at hm <;> subst hm <;> simp at h
    · cases hl : s₄.stream.last <;> simp [hl] at h
    · rename_i hne hrest
      obtain ⟨rfl, h⟩ := h
      rw [run_eq_ok] at h
      obtain ⟨m, hm, h⟩ := h
      split at hm <;> subst hm <;> simp at h
      · rename_i hone
        obtain ⟨rfl, rfl⟩ := h
        exact .single ht hi ht' hrest hone
      · rename_i hmany
        obtain ⟨rfl, rfl⟩ := h
        refine .sequence ht hi ht' hne hrest fun hlen => ?_
        obtain ⟨value, hvalue⟩ := List.length_eq_one_iff.mp hlen
        exact hmany value hvalue
  · exact .arrow hc ht hi ht' hp hl ha hline

/-- How what begins with a parenthesis is read. -/
inductive Parenthesis (d : Descent) (canBeArrow : Bool) (s : ParseState) :
    Expression → ParseState → Prop
  | arrow {params s₁ e u} (allowed : canBeArrow = true)
      (params_ok : arrowParameters d s = .ok params s₁)
      (arrow_ok : arrow d s.place params s₁ = .ok e u) : Parenthesis d canBeArrow s e u
  | list {e u}
      (no_params : canBeArrow = true → ∃ fault t, arrowParameters d s = .error (.fault fault) t)
      (list_ok : ParenthesizedExpression d s.place canBeArrow s e u) :
      Parenthesis d canBeArrow s e u

theorem of_parenthesis {canBeArrow : Bool} {e : Expression}
    (h : parenthesis d canBeArrow s = .ok e u) : Parenthesis d canBeArrow s e u := by
  simp only [parenthesis, ite_bind] at h
  simp at h
  obtain ⟨params, s₁, hp, h⟩ := h
  cases params with
  | some params =>
    obtain ⟨hc, hp⟩ : canBeArrow = true ∧ arrowParameters d s = .ok params s₁ := by grind
    exact .arrow hc hp h
  | none =>
    obtain rfl : s₁ = s := by grind
    exact .list (by grind) (of_parenthesizedExpression h)

/-- How what begins with a name is read. -/
inductive NameOrArrow (d : Descent) (canBeArrow : Bool) (s : ParseState) :
    Expression → ParseState → Prop
  | name {id u} (name_ok : identifier false s = .ok id u) :
      NameOrArrow d canBeArrow s (.identifier id) u
  | arrow {id s₁ e u} (allowed : canBeArrow = true) (name_ok : identifier false s = .ok id s₁)
      (arrow_ok : arrow d s.place [.namePattern id] s₁ = .ok e u) :
      NameOrArrow d canBeArrow s e u

theorem of_nameOrArrow {canBeArrow : Bool} {e : Expression}
    (h : nameOrArrow d canBeArrow s = .ok e u) : NameOrArrow d canBeArrow s e u := by
  simp [nameOrArrow] at h
  obtain ⟨id, s₁, hid, ⟨⟨⟨hc, -⟩, -⟩, h⟩ | ⟨-, rfl, rfl⟩⟩ := h
  · exact .arrow hc hid h
  · exact .name hid

/-- How the arguments after the callee of `new` are read, if there are any. -/
inductive NewArguments (d : Descent) (s : ParseState) :
    Node (.list .element) → ParseState → Prop
  | none : NewArguments d s .nil s
  | given {s₁ arguments u} (opening : Takes .parenL s s₁)
      (arguments_ok : suffixes.callArguments d s₁ = .ok arguments u) : NewArguments d s arguments u

theorem of_newExpression {e : Expression} (h : newExpression d s = .ok e u) :
    ∃ s₁ atom s₂ callee s₃ arguments, advance s = .ok () s₁ ∧
      d (.primary none) s₁ = .ok (atom, none) s₂ ∧
      d (.suffixes atom s₁.place true) s₂ = .ok callee s₃ ∧ NewArguments d s₃ arguments u ∧
      e = .new (u.spanFrom s.place) callee arguments := by
  simp only [newExpression, ite_bind] at h
  simp at h
  obtain ⟨s₁, ha, atom, s₂, h, callee, s₃, hc, h'⟩ := h
  rcases h' with ⟨hk, rfl, rfl⟩ | ⟨s₄, ht, arguments, harg, rfl⟩
  · exact ⟨s₁, atom, s₂, callee, _, .nil, ha, h, hc, .none, rfl⟩
  · exact ⟨s₁, atom, s₂, callee, s₃, arguments, ha, h, hc, .given ht harg, rfl⟩

/-- How the chunks of a template are read. -/
inductive Chunks (d : Descent) (s : ParseState) :
    List TemplateElement × List Expression → ParseState → Prop
  | last {raw u} (kind : s.kind = .template) (value : s.stream.token.value = .template raw)
      (chunk : advance s = .ok () u) (closing : u.kind = .backQuote) :
      Chunks d s ([⟨u.spanFrom s.place, raw, true⟩], []) u
  | more {raw s₁ s₂ e s₃ s₄ quasis values u} (kind : s.kind = .template)
      (value : s.stream.token.value = .template raw) (chunk : advance s = .ok () s₁)
      (opening : Takes .dollarBraceL s₁ s₂) (value_ok : expression d false s₂ = .ok e s₃)
      (closing : Takes .braceR s₃ s₄) (more : d .chunks s₄ = .ok (quasis, values) u) :
      Chunks d s (⟨s₁.spanFrom s.place, raw, false⟩ :: quasis, e :: values) u

theorem of_chunks {r : List TemplateElement × List Expression} (h : chunks d s = .ok r u) :
    Chunks d s r u := by
  simp [chunks] at h
  rw [run_eq_ok] at h
  obtain ⟨m, hm, h⟩ := h
  split at hm <;> subst hm <;> simp at h
  rename_i raw hk hv
  obtain ⟨s₁, ha, ⟨hb, rfl, rfl⟩ | ⟨hb, s₂, ht, e, s₃, he, s₄, ht', quasis, values, h, rfl⟩⟩ := h
  · simp only [hb]
    exact .last hk hv ha hb
  · have hb : (s₁.kind == .backQuote) = false := beq_eq_false_iff_ne.mpr hb
    simp only [hb]
    exact .more hk hv ha ht he ht' h

theorem of_template {e : Expression} (h : template d s = .ok e u) :
    ∃ s₁ quasis values s₂, Takes .backQuote s s₁ ∧ d .chunks s₁ = .ok (quasis, values) s₂ ∧
      advance s₂ = .ok () u ∧ e = .template (u.spanFrom s.place) quasis (.ofList values) := by
  simp [template] at h
  obtain ⟨s₁, ht, quasis, values, s₂, h, ha, rfl⟩ := h
  exact ⟨s₁, quasis, values, s₂, ht, h, ha, rfl⟩

/-- How a property without a colon is read after its name. -/
inductive ShorthandProperty (d : Descent) (start : Place) (id : Identifier) (pending : Pending)
    (s : ParseState) : Member × Pending → ParseState → Prop
  | bare : ShorthandProperty d start id pending s
      (.property (s.spanFrom start) (.nameKey id) (.identifier id) .init false true, pending) s
  | default {s₁ value after u} (eq : Takes .eq s s₁)
      (value_ok : d (.assignment false false (pending.record s.place)) s₁ = .ok (value, after) u) :
      ShorthandProperty d start id pending s
        (.property (u.spanFrom start) (.nameKey id)
          (.assignment (u.spanFrom start) .assign (.namePattern id) value) .init false true,
          after) u

theorem of_shorthandProperty {start : Place} {id : Identifier} {pending : Pending}
    {r : Member × Pending} (h : shorthandProperty d start id pending s = .ok r u) :
    ShorthandProperty d start id pending s r u := by
  simp [shorthandProperty] at h
  rw [run_eq_ok] at h
  obtain ⟨m, hm, h⟩ := h
  split at hm <;> subst hm <;> simp at h
  · obtain ⟨rfl, rfl⟩ := h
    exact .bare
  · obtain ⟨rfl, rfl⟩ := h
    exact .bare
  · rename_i hk
    obtain ⟨s₁, ha, value, after, h, rfl⟩ := h
    exact .default ⟨hk, ha⟩ h

/-- How the key of a property is read, which may come after the word for an accessor. -/
inductive MemberKey (d : Descent) (s : ParseState) :
    Option PropertyKind → Key → ParseState → Prop
  | plain {key u} (key_ok : PropertyName d s key u) : MemberKey d s none key u
  | accessor {word kind s₁ key u} (word_ok : PropertyName d s word s₁)
      (isAccessor : accessorKind? word = some kind) (key_ok : PropertyName d s₁ key u) :
      MemberKey d s (some kind) key u

/-- How a property of an object literal is read. -/
inductive Property (d : Descent) (pending : Pending) (s : ParseState) :
    Member × Pending → ParseState → Prop
  | method {generator s₁ accessor key s₂ f u} (star : Eats .star generator s s₁)
      (key_ok : MemberKey d s₁ accessor key s₂) (exclusive : generator = true → accessor = none)
      (method_ok : method d generator s₂ = .ok f u) :
      Property d pending s
        (.property (u.spanFrom s.place) key f.toExpression (accessor.getD .init) accessor.isNone
          false, pending) u
  | value {key s₁ s₂ value after u} (key_ok : PropertyName d s key s₁)
      (colon : Takes .colon s₁ s₂)
      (value_ok : d (.assignment false false pending) s₂ = .ok (value, after) u) :
      Property d pending s (.property (u.spanFrom s.place) key value .init false false, after) u
  | shorthand {id s₁ r u} (key_ok : PropertyName d s (.nameKey id) s₁)
      (more : ShorthandProperty d s.place id pending s₁ r u) : Property d pending s r u

theorem of_property {pending : Pending} {r : Member × Pending}
    (h : property d pending s = .ok r u) : Property d pending s r u := by
  simp only [property, ite_bind] at h
  simp at h
  rcases h with ⟨hs, word, s₁, hword, key, s₂, hkey, h⟩ | ⟨s₁, ht, key, s₂, hkey, f, hf, rfl⟩
  · have hplain : (if endsKey s₁.kind then none else accessorKind? word) = none →
        key = word ∧ s₂ = s₁ := by grind
    have hkey' : MemberKey d s (if endsKey s₁.kind then none else accessorKind? word) key s₂ := by
      cases ha : if endsKey s₁.kind then none else accessorKind? word with
      | none =>
        obtain ⟨rfl, rfl⟩ := hplain ha
        exact .plain (of_propertyName hword)
      | some kind => exact .accessor (of_propertyName hword) (by grind) (of_propertyName (by grind))
    rcases h with ⟨-, f, hf, rfl⟩ | ⟨⟨hn, -⟩, ⟨-, h⟩ | ⟨s₃, ht, value, after, h, rfl⟩⟩
    · exact .method (.inr ⟨rfl, hs, rfl⟩) hkey' nofun hf
    · obtain ⟨rfl, rfl⟩ := hplain (by grind)
      rw [run_eq_ok] at h
      obtain ⟨m, hm, h⟩ := h
      split at hm <;> subst hm
      · exact .shorthand (of_propertyName hword) (of_shorthandProperty h)
      · simp at h
    · obtain ⟨rfl, rfl⟩ := hplain (by grind)
      exact .value (of_propertyName hword) ht h
  · exact .method (.inl ⟨rfl, ht⟩) (.plain (of_propertyName hkey)) (fun _ => rfl) hf

/-- How one member of an object literal is read. -/
inductive ObjectMember (d : Descent) (pending : Pending) (s : ParseState) :
    Member × Pending → ParseState → Prop
  | spread {s₁ argument after u} (dots : Takes .ellipsis s s₁)
      (argument_ok : d (.assignment false false pending) s₁ = .ok (argument, after) u) :
      ObjectMember d pending s (.spreadMember (u.spanFrom s.place) argument, after) u
  | property {r u} (property_ok : Property d pending s r u) (plain : s.kind ≠ .ellipsis) :
      ObjectMember d pending s r u

theorem of_member {pending : Pending} {r : Member × Pending}
    (h : members.member d pending s = .ok r u) : ObjectMember d pending s r u := by
  simp [members.member] at h
  rcases h with ⟨hk, span, argument, after, h, rfl⟩ | ⟨hplain, h⟩
  · obtain ⟨s₂, argument, after, ha, h, ⟨⟩⟩ := of_spread h
    exact .spread ⟨hk, ha⟩ h
  · exact .property (of_property h) hplain

/-- How the rest of the members of an object literal is read. -/
inductive Members (d : Descent) (isFirst : Bool) (pending : Pending) (s : ParseState) :
    List Member × Pending → ParseState → Prop
  | closed {u : ParseState} (closing : Takes .braceR s u) :
      Members d isFirst pending s ([], pending) u
  | trailing {s₁ u} (comma : Separator isFirst s s₁) (closing : Takes .braceR s₁ u) :
      Members d isFirst pending s ([], pending) u
  | item {s₁ member between s₂ rest after u} (comma : Separator isFirst s s₁)
      (item_ok : ObjectMember d pending s₁ (member, between) s₂)
      (more : d (.members false between) s₂ = .ok (rest, after) u) (opens : s.kind ≠ .braceR)
      (goesOn : isFirst = false → s₁.kind ≠ .braceR) :
      Members d isFirst pending s (member :: rest, after) u

theorem of_members {isFirst : Bool} {pending : Pending} {r : List Member × Pending}
    (h : members d isFirst pending s = .ok r u) : Members d isFirst pending s r u := by
  simp only [members, ite_bind, unless_bind] at h
  simp [← separator_iff] at h
  rcases h with ⟨hopens, s₁, hc, ⟨s₂, hs, member, between, s₃, h, rest, after, h', rfl⟩ |
    ⟨⟨-, ht⟩, rfl⟩⟩ | ⟨ht, rfl⟩
  · obtain ⟨rfl, hgoesOn⟩ : s₂ = s₁ ∧ (isFirst = false → s₁.kind ≠ .braceR) := by grind
    exact .item hc (of_member h) h' hopens hgoesOn
  · exact .trailing hc ht
  · exact .closed ht

/-- How a primary expression is read. -/
inductive Primary (d : Descent) (pending : Pending) (s : ParseState) :
    Expression × Pending → ParseState → Prop
  | name {e u} (kind : s.kind = .name)
      (name_ok : NameOrArrow d (s.arrowStart == some s.place.offset) s e u) :
      Primary d pending s (e, pending) u
  | this {u : ParseState} (word : Takes (.keyword .this) s u) :
      Primary d pending s (.this (u.spanFrom s.place), pending) u
  | literal {lit u} (literal_ok : literal s = .ok lit u) :
      Primary d pending s (.literal lit, pending) u
  | parenthesis {e u} (kind : s.kind = .parenL)
      (parenthesis_ok : Parenthesis d (s.arrowStart == some s.place.offset) s e u) :
      Primary d pending s (e, pending) u
  | array {s₁ elements after u} (opening : Takes .bracketL s s₁)
      (elements_ok : d (.elements .bracketR true true true pending) s₁ =
        .ok (elements, after) u) :
      Primary d pending s (.array (u.spanFrom s.place) (.ofHoleyList elements), after) u
  | object {s₁ members after u} (opening : Takes .braceL s s₁)
      (members_ok : d (.members true pending) s₁ = .ok (members, after) u) :
      Primary d pending s (.object (u.spanFrom s.place) (.ofList members), after) u
  | function {s₁ f u} (word : Takes (.keyword .function) s s₁)
      (function_ok : function d s.place false s₁ = .ok f u) :
      Primary d pending s (f.toExpression, pending) u
  | template {e u} (kind : s.kind = .backQuote) (template_ok : template d s = .ok e u) :
      Primary d pending s (e, pending) u
  | new {e u} (kind : s.kind = .keyword .new) (new_ok : newExpression d s = .ok e u) :
      Primary d pending s (e, pending) u

theorem of_primary {pending : Pending} {r : Expression × Pending}
    (h : primary d pending s = .ok r u) : Primary d pending s r u := by
  simp [primary] at h
  rw [run_eq_ok] at h
  obtain ⟨m, hm, h⟩ := h
  have hliteral : ∀ {lit}, literal s = .ok lit u → r = (.literal lit, pending) →
      Primary d pending s r u := by
    rintro lit hlit rfl
    exact .literal hlit
  split at hm <;> subst hm <;> simp at h <;> rename_i hk
  case h_2 =>
    obtain ⟨ha, rfl⟩ := h
    exact .this ⟨hk, ha⟩
  case h_10 =>
    obtain ⟨s₁, ha, elements, after, h, rfl⟩ := h
    exact .array ⟨hk, ha⟩ h
  case h_11 =>
    obtain ⟨s₁, ha, members, after, h, rfl⟩ := h
    exact .object ⟨hk, ha⟩ h
  case h_12 =>
    obtain ⟨s₁, ha, f, h, rfl⟩ := h
    exact .function ⟨hk, ha⟩ h
  all_goals
    obtain ⟨a, h, hr⟩ := h
  case h_1 => exact hr ▸ .name hk (of_nameOrArrow h)
  case h_9 => exact hr ▸ .parenthesis hk (of_parenthesis h)
  case h_13 => exact hr ▸ .template hk h
  case h_14 => exact hr ▸ .new hk h
  all_goals exact hliteral h hr

theorem array_eq_ok {pending : Pending} {r : Expression × Pending} (hk : s.kind = .bracketL) :
    primary d pending s = .ok r u ↔ ∃ s₁ elements after, advance s = .ok () s₁ ∧
      d (.elements .bracketR true true true pending) s₁ = .ok (elements, after) u ∧
      r = (.array (u.spanFrom s.place) (.ofHoleyList elements), after) := by
  simp [primary, hk]

theorem object_eq_ok {pending : Pending} {r : Expression × Pending} (hk : s.kind = .braceL) :
    primary d pending s = .ok r u ↔ ∃ s₁ members after, advance s = .ok () s₁ ∧
      d (.members true pending) s₁ = .ok (members, after) u ∧
      r = (.object (u.spanFrom s.place) (.ofList members), after) := by
  simp [primary, hk]

end EcmaTree.Reading
