import EcmaTree.Proofs.Grammar.Loosening.Targets
import EcmaTree.Proofs.Grammar.Operand
import EcmaTree.Proofs.Target.Kept
import EcmaTree.Proofs.Target.Offence
import EcmaTree.Proofs.Token.Seen

/-!
# Liberties of targets that were read as expressions

A list that is read as expressions and then converted may hold targets that are written as the
binding grammar does not write them: in parentheses, as a rest with a comma behind it or with an
array as its argument, or as a shorthand whose default value keeps a default of its own. Which
expressions become a target at all is seen from what was read: no operator and no suffix makes one.
-/

namespace EcmaTree

/-- The token right before `place` is a parenthesis behind `opening`. -/
def IsParenthesized (ts : List Token) (opening place : Place) : Prop :=
  ∃ a b : Token, [a, b] <:+: ts ∧ a.kind = .parenL ∧
    opening.offset < a.span.start.offset ∧ b.span.start = place

/-- How a target among the tokens `ts` behind an `opening` parenthesis may be written that the
binding grammar does not know. -/
inductive Node.TakesLiberty (ts : List Token) (opening : Place) : {c : Category} → Node c → Prop
  | parenthesized {p : Pattern} (h : IsParenthesized ts opening p.span.start) :
      TakesLiberty ts opening p
  | trailingComma {span : Span} {argument : Pattern} {a b : Token} (adjacent : [a, b] <:+: ts)
      (stop : a.span.stop.offset = span.stop.offset) (comma : b.kind = .comma) :
      TakesLiberty ts opening (.restPattern span argument)
  | gathersArray {span span' : Span} {elements : Node (.list (.option .pattern))} :
      TakesLiberty ts opening (.restPattern span (.arrayPattern span' elements))
  | keepsDefault {m : PatternMember} (h : m.isKeeper = true) : TakesLiberty ts opening m

namespace Node

variable {c : Category} {ts : List Token} {opening : Place}

/-- A spread in an object, which is no target. -/
def isSpreadPattern : {c : Category} → Node c → Bool
  | _, .spreadPattern _ _ => true
  | _, _ => false

/-- A spread is refused by every check. -/
theorem not_isSpreadPattern_of_passes {n : Node c} {strict isBinding : Bool}
    (h : n.Passes strict isBinding) : n.isSpreadPattern = false := by
  obtain ⟨names, names', h⟩ := h
  cases n <;> first | rfl | cases h

theorem hasTarget_ofList {x : Node c} {xs : List (Node c)} (h : x ∈ xs) :
    HasTarget ⟨_, ofList xs⟩ ⟨_, x⟩ := by
  induction xs with
  | nil => cases h
  | cons y ys ih =>
    rcases List.mem_cons.mp h with rfl | h
    · exact .single List.mem_cons_self
    · exact .head (List.mem_cons_of_mem _ List.mem_cons_self) (ih h)

/-- A target and all targets in it are names, arrays and objects written as the binding grammar
writes them: none takes a liberty, and there is no member of an object and no spread. -/
def IsBinding (ts : List Token) (opening : Place) (n : Node c) : Prop :=
  ∀ m, HasTarget ⟨c, n⟩ m → ¬m.2.TakesLiberty ts opening ∧ m.2.isMemberPattern = false ∧
    m.2.isSpreadPattern = false

theorem IsBinding.of_target {n : Node c} {m : (c : Category) × Node c}
    (h : n.IsBinding ts opening) (hm : m ∈ n.targets) : m.2.IsBinding ts opening :=
  fun _ ht => h _ (.head hm ht)

theorem IsBinding.of_targets {n : Node c} (hl : ¬n.TakesLiberty ts opening)
    (hm : n.isMemberPattern = false) (hs : n.isSpreadPattern = false)
    (ht : ∀ m ∈ n.targets, m.2.IsBinding ts opening) : n.IsBinding ts opening := by
  intro m h
  rcases Relation.ReflTransGen.cases_head h with rfl | ⟨x, hx, hm⟩
  · exact ⟨hl, hm, hs⟩
  · exact ht x hx m hm

theorem isBinding_nil : (nil : Node (.list c)).IsBinding ts opening :=
  .of_targets nofun rfl rfl nofun

theorem isBinding_absent : (absent : Node (.option c)).IsBinding ts opening :=
  .of_targets nofun rfl rfl nofun

theorem isBinding_present {x : Node c} :
    (present x).IsBinding ts opening ↔ x.IsBinding ts opening := by
  constructor
  · exact fun h => h.of_target List.mem_cons_self
  · exact fun h => .of_targets nofun rfl rfl (List.forall_mem_singleton.mpr h)

theorem isBinding_cons {x : Node c} {xs : Node (.list c)} :
    (cons x xs).IsBinding ts opening ↔ x.IsBinding ts opening ∧ xs.IsBinding ts opening := by
  constructor
  · intro h
    exact ⟨h.of_target List.mem_cons_self,
      h.of_target (List.mem_cons_of_mem _ List.mem_cons_self)⟩
  · rintro ⟨hx, hxs⟩
    exact .of_targets nofun rfl rfl
      (List.forall_mem_cons.mpr ⟨hx, List.forall_mem_singleton.mpr hxs⟩)

theorem isBinding_ofList {xs : List (Node c)} :
    (ofList xs).IsBinding ts opening ↔ ∀ x ∈ xs, x.IsBinding ts opening := by
  induction xs with
  | nil => exact ⟨fun _ => nofun, fun _ => isBinding_nil⟩
  | cons x xs ih =>
    change (cons x (ofList xs)).IsBinding ts opening ↔ _
    rw [isBinding_cons, ih, List.forall_mem_cons]

theorem isBinding_ofHoleyList {xs : List (Option (Node c))} :
    (ofHoleyList xs).IsBinding ts opening ↔ (ofList xs.reduceOption).IsBinding ts opening := by
  rw [ofHoleyList, isBinding_ofList, isBinding_ofList, List.forall_mem_map]
  constructor
  · exact fun h x hx => isBinding_present.mp (h _ (List.reduceOption_mem_iff.mp hx))
  · rintro h (_ | x) hx
    · exact isBinding_absent
    · exact isBinding_present.mpr (h x (List.reduceOption_mem_iff.mpr hx))

/-- An expression that may become a pattern which binds names. -/
def mayBind : Expression → Bool
  | .identifier _ | .array _ _ | .object _ _ | .assignment _ _ _ _ => true
  | _ => false

theorem not_isComposed_of_mayBind {e : Expression} (h : e.mayBind = true) :
    e.isComposed = false := by
  cases e <;> first | rfl | cases h

theorem mayBind_of_converts {e : Expression} {p : Pattern} {isBinding : Bool}
    (h : Converts isBinding e p) (hp : p.isMemberPattern = false) : e.mayBind = true := by
  cases h <;> first | rfl | cases hp

end Node

namespace Grammar

open EcmaTree.Parser EcmaTree.Reading EcmaTree.Trail ParseState Node

variable {options : ParseOptions} {d : Descent} {s t u : ParseState}
  {pending after : Pending} {e : Expression}

/-- The plain operator of an assignment is a token of its own kind. -/
theorem kind_of_assign (hs : s.stream.IsPlaced) (hk : s.kind.isAssignment = true)
    (hspelling : operatorOf AssignmentOperator.ofSpelling? s.stream.token = some .assign) :
    s.kind = .eq := by
  have htext : s.stream.token.value.text? = some "=" := by
    obtain ⟨text, htext, hfind⟩ := Option.bind_eq_some_iff.mp hspelling
    have hsame := List.find?_some hfind
    rw [htext, ← eq_of_beq hsame]
    rfl
  have hne : s.kind ≠ .assign := fun h => hs.spelled.computes h htext
  unfold TokenKind.isAssignment at hk
  split at hk <;> first | assumption | exact absurd ‹_› hne | cases hk

theorem operatorOf_of_eq (hs : s.stream.IsPlaced) (hk : s.kind = .eq) :
    operatorOf AssignmentOperator.ofSpelling? s.stream.token = some .assign := by
  rw [operatorOf, hs.spelled.assigns hk]
  rfl

section Forms

variable (hd : Answers options d)

include hd

/-- An expression that may become a target which binds is an operand and nothing more. -/
theorem primary_of_conditional {noIn : Bool}
    (h : conditional d noIn pending s = .ok (e, after) u) (he : e.mayBind = true) :
    d (.primary pending) s = .ok (e, after) u := by
  have hlone : IsLone s.place e := isLone_of_not (not_isComposed_of_mayBind he)
  have hunary := operand_of_conditional hd h hlone
  cases hu : s.kind.isUnary with
  | false => exact primary_of_operand hd hu hunary hlone
  | true =>
    obtain ⟨hexpression, -⟩ := unaryExpression_of_unary hd hu hunary
    cases of_unaryExpression hexpression <;> cases he

/-- The primary expressions that may become a target which binds. -/
inductive BindingPrimary (d : Descent) (pending : Pending) (s : ParseState) :
    Expression × Pending → ParseState → Prop
  | name {id u} (kind : s.kind = .name) (name_ok : identifier false s = .ok id u) :
      BindingPrimary d pending s (.identifier id, pending) u
  | array {s₁ elements after u} (opening : Takes .bracketL s s₁)
      (elements_ok : d (.elements .bracketR true true true pending) s₁ =
        .ok (elements, after) u) :
      BindingPrimary d pending s (.array (u.spanFrom s.place) (.ofHoleyList elements), after) u
  | object {s₁ members after u} (opening : Takes .braceL s s₁)
      (members_ok : d (.members true pending) s₁ = .ok (members, after) u) :
      BindingPrimary d pending s (.object (u.spanFrom s.place) (.ofList members), after) u
  | parenthesis {s₁ items s₂ e u} (opening : Takes .parenL s s₁)
      (items_ok : d (.parenthesized true none) s₁ = .ok (items, none) s₂)
      (closing : Takes .parenR s₂ u) (one : expressionsOf items = [e]) :
      BindingPrimary d pending s (e, pending) u

theorem of_bindingPrimary (h : d (.primary pending) s = .ok (e, after) u)
    (he : e.mayBind = true) : BindingPrimary d pending s (e, after) u := by
  have harrow : ∀ {start params t}, arrow d start params t = .ok e u → False := by
    intro start params t h
    obtain ⟨s₁, body, -, -, rfl⟩ := of_arrow h
    cases he
  rw [← hd.rule_eq (.primary pending) s trivial] at h
  cases of_primary h with
  | name kind name_ok =>
    cases name_ok with
    | name name_ok => exact .name kind name_ok
    | arrow allowed name_ok arrow_ok => exact (harrow arrow_ok).elim
  | parenthesis kind parenthesis_ok =>
    cases parenthesis_ok with
    | arrow allowed params_ok arrow_ok => exact (harrow arrow_ok).elim
    | list no_params list_ok =>
      cases list_ok with
      | arrow allowed opening items_ok closing patterns_ok legal arrow_ok =>
        exact (harrow arrow_ok).elim
      | single opening items_ok closing no_rest one =>
        exact .parenthesis opening items_ok closing one
      | sequence => cases he
  | array opening elements_ok => exact .array opening elements_ok
  | object opening members_ok => exact .object opening members_ok
  | this | literal | function => cases he
  | template kind template_ok =>
    obtain ⟨s₁, quasis, values, s₂, -, -, -, rfl⟩ := of_template template_ok
    cases he
  | new kind new_ok =>
    obtain ⟨s₁, atom, s₂, callee, s₃, arguments, -, -, -, -, rfl⟩ := of_newExpression new_ok
    cases he

/-- What stands in parentheses begins right behind one. -/
theorem isParenthesized_of_primary {ts : List Token} {opening : Place} (hs : s.stream.IsPlaced)
    (hopening : opening.offset < s.place.offset) (hk : s.kind = .parenL)
    (h : d (.primary pending) s = .ok (e, after) u) (he : e.mayBind = true)
    (hseen : u.stream.seen <+: ts) : IsParenthesized ts opening e.span.start := by
  induction hn : s.unread using Nat.strongRecOn generalizing s u pending after with
  | ind n ih =>
    cases of_bindingPrimary hd h he with
    | name kind => cases hk.symm.trans kind
    | array bracket => cases hk.symm.trans bracket.1
    | object brace => cases hk.symm.trans brace.1
    | @parenthesis s₁ items s₂ _ _ paren items_ok closing one =>
      have hlt := unread_lt_of_takes (by decide) paren
      have hf := follows_of_takes paren (by decide)
      have hs₁ := TokenStream.isPlaced_of_follows hs hf
      have hopening₁ := Nat.lt_of_lt_of_le hopening (place_le_of_follows hs hf)
      rw [← hd.rule_eq (.parenthesized true none) s₁ trivial] at items_ok
      cases of_parenthesized items_ok with
      | done => cases one
      | rest => cases one
      | @item _ value between s₂' rest _ _ comma item_ok more =>
        cases comma
        obtain ⟨rfl, -⟩ := List.cons.inj one
        have hrest := (follows_of_goal hd.traces more trivial).trans
          (follows_of_takes closing (by decide))
        have hseen₂ := (TokenStream.seen_prefix_of_follows hrest).trans hseen
        have hdirect : ∀ {place}, place = s₁.place → IsParenthesized ts opening place := by
          rintro _ rfl
          have hseen₁ := (TokenStream.seen_prefix_of_follows
            (follows_of_goal hd.traces item_ok trivial)).trans hseen₂
          refine ⟨s.stream.token, s₁.stream.token, ?_, hk, hopening, rfl⟩
          obtain ⟨stream, ha, rfl⟩ := advance_eq_ok.mp paren.2
          exact (TokenStream.adjacent_of_step ⟨by simp [hk], ha⟩).trans hseen₁.isInfix
        rw [← hd.rule_eq (.assignment false false none) s₁ trivial] at item_ok
        cases of_assignment item_ok with
        | yield scope word yield_ok => cases yield_ok <;> cases he
        | assign => exact hdirect (start_spanFrom _ _)
        | plain left_ok =>
          have hprimary := primary_of_conditional hd left_ok he
          have hmark : s₁.markArrow.stream = s₁.stream := stream_markArrow s₁
          have hplace : s₁.markArrow.place = s₁.place := congrArg (·.token.span.start) hmark
          have hnested : s₁.markArrow.kind = .parenL →
              IsParenthesized ts opening value.span.start := fun hkind =>
            ih _ (by rw [← hn, ParseState.unread, hmark]; exact hlt) (hmark ▸ hs₁)
              (hplace ▸ hopening₁) hkind hprimary hseen₂ rfl
          cases of_bindingPrimary hd hprimary he with
          | name kind name_ok =>
            obtain ⟨name, -, -, -, rfl⟩ := of_identifier name_ok
            exact hdirect ((start_spanFrom _ _).trans hplace)
          | array bracket => exact hdirect ((start_spanFrom _ _).trans hplace)
          | object brace => exact hdirect ((start_spanFrom _ _).trans hplace)
          | parenthesis paren' => exact hnested paren'.1

end Forms

end Grammar

end EcmaTree
