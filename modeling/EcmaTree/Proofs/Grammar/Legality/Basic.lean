import EcmaTree.Proofs.Grammar.Dangling
import EcmaTree.Proofs.Grammar.Scope
import EcmaTree.Proofs.Target.Converts
import EcmaTree.Proofs.Token.Trail
import EcmaTree.Proofs.Tree.Form

/-!
# What is legal where it stands

Each rule of the grammar looks at the scope when it accepts a jump, a label, a `return`, a
`yield` or something that is bound. What it has seen there is a fact about the node that it
answers and about the scope in which this node stands, and the scope is the same in the finished
tree.

What names and assignments are like follows from where they stand. A property name may be a
keyword, and so may what a shorthand property puts in the place of its value; the assignment there
is a default value that no check has seen. All other names and assignments are proper.
-/

namespace EcmaTree

open EcmaTree.Parser EcmaTree.Grammar EcmaTree.Reading Node

/-- What a function binds has passed its checks, and only its last parameter gathers the rest. -/
structure Binds (strict : Bool) (id : Option Identifier) (isArrow : Bool)
    (params : Node (.list .pattern)) : Prop where
  name_ok : ∀ name, id = some name → strict = true →
    (Pattern.check true true none (.namePattern name)).1 = .ok ()
  params_ok : Pattern.checkAll strict true
    (if isArrow || strict || !params.toList.all Pattern.isName then some [] else none)
    params.toList = .ok ()
  rest_last : params.RestLast

/-- What the rule for a node has made sure of in the scope in which the node stands. -/
def Node.Obeys (options : ParseOptions) (σ : Scope) : {c : Category} → Node c → Prop
  | _, .array _ elements => ∀ x ∈ elements.toList, x.isRestElement = false
  | _, .call _ _ arguments | _, .new _ _ arguments =>
    ∀ x ∈ arguments.toList, x.isRestElement = false
  | _, .function _ id params body _ | _, .functionDeclaration _ id params body _ =>
    Binds (σ.strict || body.turnsStrict) id false params
  | _, .arrow _ params body => Binds (σ.strict || body.turnsStrict) none true params
  | _, .yield _ _ _ => σ.inGenerator = true
  | _, .objectPattern _ members => members.RestLast
  | _, .arrayPattern _ elements => elements.RestLast
  | _, .rest _ argument | _, .restPattern _ argument | _, .restMember _ argument =>
    argument.isDefault = false ∧ argument.isRest = false
  | _, .assignment _ _ target _ | _, .defaultPattern _ target _ | _, .propertyPattern _ _ target _
  | _, .targetPattern target => target.isRest = false
  | _, .spreadPattern _ _ => False
  | _, .returnStatement _ _ => σ.inFunction = true ∨ options.allowReturnOutsideFunction = true
  | _, .breakStatement _ label =>
    σ.labels.any (isJumpTarget .break (label.map Identifier.name)) = true
  | _, .continueStatement _ label =>
    σ.labels.any (isJumpTarget .continue (label.map Identifier.name)) = true
  | _, .labeledStatement _ label _ => ∀ l ∈ σ.labels, l.name ≠ some label.name
  | _, .declarator _ target _ =>
    (Pattern.check σ.strict true none target).1 = .ok () ∧ target.isRest = false
  | _, .handler _ param _ =>
    Pattern.checkAll σ.strict true (some []) [param] = .ok () ∧ param.isRest = false
  | _, _ => True

/-- What the rule for a node has made sure of about the names that the node holds, about what it
changes and deletes, and about a default in the place of its target, which stands in parentheses
and so begins later than the node. The value of a shorthand property is its name, perhaps with a
default value. A statement before an `else` ends in no `if` that the `else` could join. -/
def Node.Heeds (σ : Scope) : {c : Category} → Node c → Prop
  | _, .function _ id _ _ _ | _, .functionDeclaration _ id _ _ _ | _, .breakStatement _ id
  | _, .continueStatement _ id => ∀ name, id = some name → Keyword.ofWord? name.name = none
  | _, .labeledStatement _ label _ => Keyword.ofWord? label.name = none
  | _, .update _ _ _ argument => MayChange σ.strict argument
  | _, .unary _ operator argument =>
    operator = .delete → σ.strict = true → ∀ id, argument ≠ .identifier id
  | _, .assignment span _ target _ | _, .defaultPattern span target _ =>
    target.isDefault = true → span.start.offset < target.span.start.offset
  | _, .targetPattern target => (Pattern.check σ.strict false none target).1 = .ok ()
  | _, .ifStatement _ _ consequent alternate =>
    alternate ≠ .absent → consequent.hasDanglingIf = false
  | _, .member _ _ name false | _, .memberPattern _ _ name false => ∃ id, name = .identifier id
  | _, .property _ key value _ _ true => ∃ id, key = .nameKey id ∧
    (value = .identifier id ∨ ∃ span v, value = .assignment span .assign (.namePattern id) v)
  | _, .propertyPattern _ key value true => ∃ id, key = .nameKey id ∧
    (value = .namePattern id ∨ ∃ span v, value = .defaultPattern span (.namePattern id) v)
  | _, _ => True

/-- What holds of a name or an assignment unless it stands in the place of a property name or of
the value of a shorthand property. -/
def Node.IsProper (σ : Scope) : {c : Category} → Node c → Prop
  | _, .identifier id | _, .namePattern id => Keyword.ofWord? id.name = none
  | _, .assignment _ _ target _ =>
    (Pattern.check σ.strict false none target).1 = .ok () ∧ target.IsProper σ
  | _, .defaultPattern _ target _ => target.IsProper σ
  | _, _ => True

/-- The sites below a node where names and assignments have to be proper. For the target of an
assignment this is up to the place of the assignment. -/
def Node.properParts (σ : Scope) : {c : Category} → Node c → List Site
  | _, .member _ obj _ false | _, .memberPattern _ obj _ false => [⟨σ, obj⟩]
  | _, .property _ key _ _ _ true | _, .propertyPattern _ key _ true => [⟨σ, key⟩]
  | _, .assignment _ _ _ value | _, .defaultPattern _ _ value => [⟨σ, value⟩]
  | _, n => n.parts σ

/-- What the rule for a node has made sure of about the node itself. -/
structure Node.IsSound (options : ParseOptions) (σ : Scope) {c : Category} (n : Node c) :
    Prop where
  obeys : n.Obeys options σ
  heeds : n.Heeds σ
  form : n.HasForm
  proper : n.IsProper σ

/-- Whether nothing has to be made sure of but for the parts of the node. -/
def Node.isFree : {c : Category} → Node c → Bool
  | _, .this _ | _, .object _ _ | _, .binary _ _ _ _ | _, .logical _ _ _ _
  | _, .conditional _ _ _ _ | _, .item _ | _, .spread _ _ | _, .spreadMember _ _ | _, .nameKey _
  | _, .literalKey _ | _, .computedKey _ | _, .block _ _ | _, .conciseBody _
  | _, .expressionStatement _ _ _ | _, .emptyStatement _ | _, .throwStatement _ _
  | _, .initExpression _ | _, .nil | _, .cons _ _ | _, .absent | _, .present _ => true
  | _, .member _ _ _ computed => computed
  | _, .property _ _ _ _ _ shorthand => !shorthand
  | _, _ => false

theorem Node.IsSound.free {options : ParseOptions} {σ : Scope} {c : Category} {n : Node c}
    (h : n.isFree = true) : n.IsSound options σ := by
  cases n with
  | member _ _ _ computed =>
    cases computed with
    | true => exact ⟨trivial, trivial, trivial, trivial⟩
    | false => cases h
  | property _ _ _ _ _ shorthand =>
    cases shorthand with
    | true => cases h
    | false => exact ⟨trivial, trivial, trivial, trivial⟩
  | _ => first | exact ⟨trivial, trivial, trivial, trivial⟩ | cases h

/-- All that the rule for a node has made sure of. -/
structure Node.Abides (options : ParseOptions) (σ : Scope) {c : Category} (n : Node c) : Prop where
  obeys : n.Obeys options σ
  heeds : n.Heeds σ
  form : n.HasForm
  proper : ∀ site ∈ n.properParts σ, site.node.IsProper site.scope

/-- The node is proper where it stands, and the rules have made sure of all nodes below it. -/
structure Node.IsFormed (options : ParseOptions) (σ : Scope) {c : Category} (n : Node c) :
    Prop where
  proper : n.IsProper σ
  everywhere : n.Everywhere (Node.Abides options) σ

/-- The node and all nodes below it obey the rules of their scopes. -/
abbrev Node.IsLegal (options : ParseOptions) (σ : Scope) {c : Category} (n : Node c) : Prop :=
  n.Everywhere (Node.Obeys options) σ

theorem Node.IsFormed.isLegal {options : ParseOptions} {σ : Scope} {c : Category} {n : Node c}
    (h : n.IsFormed options σ) : n.IsLegal options σ :=
  fun site hsite => (h.everywhere site hsite).obeys

/-- The parse has come to the state `s` in the scope `σ`, at the place `front` or behind it. -/
structure ParseState.Stands (σ : Scope) (front : Nat) (s : ParseState) : Prop where
  scope_eq : s.scope = σ
  placed : s.stream.IsPlaced
  behind : front ≤ s.place.offset

/-- The expression begins at the place or behind it. An assignment begins behind it, because it
stands in parentheses. -/
structure Node.Starts (start : Place) (e : Expression) : Prop where
  start_le : start.offset ≤ e.span.start.offset
  assignment_lt : ∀ {span operator target value}, e = .assignment span operator target value →
    start.offset < span.start.offset

/-- What holds of a statement that has been read in the scope `σ`. Its first token tells whether
it is a loop, and it is not marked as a directive yet. -/
structure StatementLegal (options : ParseOptions) (σ : Scope) (front : Nat) (isLoop : Bool)
    (r : Statement) (u : ParseState) : Prop where
  stands : u.Stands σ front
  formed : r.IsFormed options σ
  unmarked : mark? r = none
  isLoop_eq : r.isLoop = isLoop

/-- What holds of the answer to a goal that is asked in the scope `σ` behind the place `front`. Only
statements with directives change the scope. -/
def Goal.Obeys (options : ParseOptions) (g : Goal) (σ : Scope) (front : Nat) (s : ParseState)
    (r : g.Result) (u : ParseState) : Prop :=
  match g, r with
  | .statement, r => StatementLegal options σ front s.kind.isLoop r u
  | .statements inPrologue _, r =>
    u.Stands { σ with strict := σ.strict || r.any Node.isUseStrict } front ∧
      (∀ x ∈ r, x.IsFormed options u.scope) ∧
      (inPrologue = false → IsUnmarked r) ∧ (inPrologue = true → IsPrologue r)
  | .declarators inFor kind, r =>
    u.Stands σ front ∧ (∀ x ∈ r, x.IsFormed options σ) ∧ r ≠ [] ∧
      ((inFor = true → u.kind ≠ .keyword .in ∧ u.isWord "of" = false) →
        ∀ x ∈ r, x.IsInitialized kind)
  | .assignment _ _ _, r =>
    u.Stands σ front ∧ r.1.IsFormed options σ ∧ s.kind.isLoop = false ∧
      s.place.offset ≤ r.1.span.start.offset
  | .commaOperands _ _ _, r =>
    u.Stands σ front ∧ (∀ x ∈ r.1, x.IsFormed options σ) ∧ (s.kind = .comma → r.1 ≠ [])
  | .unary _, r =>
    u.Stands σ front ∧ r.1.IsFormed options σ ∧ s.kind.isLoop = false ∧ r.1.Starts s.place
  | .operators left start _ _, r => left.IsFormed options σ → left.Starts start →
    u.Stands σ front ∧ r.IsFormed options σ ∧ r.Starts start
  | .primary _, r =>
    u.Stands σ front ∧ r.1.IsFormed options σ ∧ s.kind.isLoop = false ∧ r.1.Starts s.place
  | .suffixes base start _, r => base.IsFormed options σ → base.Starts start →
    u.Stands σ front ∧ r.IsFormed options σ ∧ r.Starts start
  | .elements _ _ _ _ _, r =>
    u.Stands σ front ∧ ∀ x, some x ∈ r.1 → x.IsFormed options σ ∧ x.isRestElement = false
  | .parenthesized _ _, r =>
    u.Stands σ front ∧ (∀ x ∈ r.1, x.IsFormed options σ ∧ front ≤ x.span.start.offset) ∧
      (restAtEnd? r.1 = none → (expressionsOf r.1).length = r.1.length)
  | .members _ _, r => u.Stands σ front ∧ ∀ x ∈ r.1, x.IsFormed options σ
  | .chunks, r =>
    u.Stands σ front ∧ (∀ x ∈ r.2, x.IsFormed options σ) ∧ IsInterleaved r.1 r.2.length
  | .targets _ _ _ _, r =>
    u.Stands σ front ∧ (∀ x, some x ∈ r → x.IsFormed options σ) ∧ (ofHoleyList r).RestLast
  | .patternMembers _, r =>
    u.Stands σ front ∧ (∀ x ∈ r, x.IsFormed options σ) ∧ (ofList r).RestLast

namespace Legality

variable {options : ParseOptions} {σ : Scope} {front : Nat} {c : Category} {s u : ParseState}
  {k : TokenKind}

section Stands

theorem stands_of_advance {x : Unit} (hs : s.Stands σ front) (h : advance s = .ok x u) :
    u.Stands σ front := by
  obtain ⟨stream, hstream, rfl⟩ := advance_eq_ok.mp h
  refine ⟨hs.scope_eq, TokenStream.isPlaced_of_read hstream, ?_⟩
  have hnext := TokenStream.stop_le_start_of_advance hs.placed hstream
  exact Nat.le_trans hs.behind (Nat.le_trans hs.placed.start_le_stop hnext)

theorem stands_of_takes (hs : s.Stands σ front) (h : Takes k s u) : u.Stands σ front :=
  stands_of_advance hs h.2

/-- Behind a token that is not empty. -/
theorem stands_behind (hs : s.Stands σ front) (h : Takes k s u) (he : k ≠ .eof)
    (ht : k ≠ .template) : u.Stands σ (s.place.offset + 1) := by
  obtain ⟨hscope, hplaced, -⟩ := stands_of_takes hs h
  refine ⟨hscope, hplaced, ?_⟩
  obtain ⟨hk, ha⟩ := h
  obtain ⟨stream, hstream, rfl⟩ := advance_eq_ok.mp ha
  have hwide := hs.placed.wide (fun h => he (hk.symm.trans h)) (fun h => ht (hk.symm.trans h))
  exact Nat.lt_of_lt_of_le hwide (TokenStream.stop_le_start_of_advance hs.placed hstream)

theorem stands_of_eats {eaten : Bool} (hs : s.Stands σ front) (h : Eats k eaten s u) :
    u.Stands σ front := by
  rcases h with ⟨-, h⟩ | ⟨-, -, rfl⟩
  · exact stands_of_takes hs h
  · exact hs

theorem stands_of_ends (hs : s.Stands σ front) (h : Ends s u) : u.Stands σ front := by
  rcases h with h | ⟨-, -, rfl⟩
  · exact stands_of_takes hs h
  · exact hs

theorem stands_of_separator {isFirst : Bool} (hs : s.Stands σ front) (h : Separator isFirst s u) :
    u.Stands σ front := by
  cases h with
  | first => exact hs
  | comma comma => exact stands_of_takes hs comma

theorem stands_of_identifier {liberal : Bool} {id : Identifier} (hs : s.Stands σ front)
    (h : identifier liberal s = .ok id u) : u.Stands σ front := by
  obtain ⟨name, -, -, hword, -⟩ := of_identifier h
  exact stands_of_advance hs hword

/-- A name that is read where no property name may stand is no keyword. -/
theorem not_keyword_of_identifier {id : Identifier} (hs : s.Stands σ front)
    (h : identifier false s = .ok id u) : Keyword.ofWord? id.name = none := by
  obtain ⟨name, hvalue, hk | ⟨⟨⟩, -⟩, -, rfl⟩ := of_identifier h
  exact hs.placed.not_keyword hk name hvalue

theorem stands_of_literal {lit : Literal} (hs : s.Stands σ front) (h : literal s = .ok lit u) :
    u.Stands σ front := by
  obtain ⟨value, -, hword, -⟩ := of_literal h
  exact stands_of_advance hs hword

/-- A string literal as written stands in quotes. -/
theorem hasForm_of_literal {lit : Literal} (hs : s.Stands σ front) (h : literal s = .ok lit u) :
    HasForm (.literal lit) := by
  obtain ⟨value, hvalue, -, rfl⟩ := of_literal h
  rintro text hv
  obtain rfl : value = .string text := hv
  have hk : s.stream.token.kind = .string := by
    unfold literalValue? at hvalue
    split at hvalue <;> first | assumption | cases hvalue
  rw [String.toList_ofList]
  exact hs.placed.spelled.quoted hk

end Stands

section Starts

theorem starts_of_span {start : Place} {e : Expression} (hspan : e.span = u.spanFrom start)
    (h : ∀ {span operator target value}, e ≠ .assignment span operator target value) :
    e.Starts start :=
  ⟨by simp [hspan, ParseState.start_spanFrom], fun he => absurd he h⟩

end Starts

section Formed

theorem properParts_subset (n : Node c) : ∀ site ∈ n.properParts σ, site ∈ n.parts σ := by
  intro site hsite
  cases n with
  | member _ _ _ computed | memberPattern _ _ _ computed =>
    cases computed with
    | true => exact hsite
    | false => exact List.mem_cons.mpr (.inl (List.mem_singleton.mp hsite))
  | property _ _ _ _ _ shorthand | propertyPattern _ _ _ shorthand =>
    cases shorthand with
    | true => exact List.mem_cons.mpr (.inl (List.mem_singleton.mp hsite))
    | false => exact hsite
  | assignment | defaultPattern => exact List.mem_cons_of_mem _ hsite
  | _ => exact hsite

variable {n : Node c}

/-- A node whose parts are formed, apart from those that need not be proper. -/
theorem isFormed_of_everywhere (hn : n.IsSound options σ)
    (hparts : ∀ site ∈ n.parts σ, site.node.Everywhere (Node.Abides options) site.scope)
    (hplain : ∀ site ∈ n.properParts σ, site.node.IsProper site.scope) :
    n.IsFormed options σ :=
  ⟨hn.proper, everywhere_of_parts ⟨hn.obeys, hn.heeds, hn.form, hplain⟩ hparts⟩

theorem isFormed_of_parts (hn : n.IsSound options σ)
    (hparts : ∀ site ∈ n.parts σ, site.node.IsFormed options site.scope) :
    n.IsFormed options σ :=
  isFormed_of_everywhere hn (fun site hsite => (hparts site hsite).everywhere)
    fun site hsite => (hparts site (properParts_subset n site hsite)).proper

/-- A node without children. -/
theorem isFormed_leaf (hn : n.IsSound options σ) (hparts : n.parts σ = []) :
    n.IsFormed options σ :=
  isFormed_of_parts hn (by simp [hparts])

/-- A node with one child in the same scope. -/
theorem isFormed_of_one {c' : Category} {a : Node c'} (hn : n.IsSound options σ)
    (hparts : n.parts σ = [⟨σ, a⟩]) (ha : a.IsFormed options σ) : n.IsFormed options σ := by
  refine isFormed_of_parts hn ?_
  rw [hparts]
  exact List.forall_mem_singleton.mpr ha

/-- A node with two children in the same scope. -/
theorem isFormed_of_two {c₁ c₂ : Category} {a : Node c₁} {b : Node c₂}
    (hn : n.IsSound options σ) (hparts : n.parts σ = [⟨σ, a⟩, ⟨σ, b⟩])
    (ha : a.IsFormed options σ) (hb : b.IsFormed options σ) : n.IsFormed options σ := by
  refine isFormed_of_parts hn ?_
  rw [hparts]
  exact List.forall_mem_cons.mpr ⟨ha, List.forall_mem_singleton.mpr hb⟩

theorem isFormed_of_three {c₁ c₂ c₃ : Category} {a : Node c₁} {b : Node c₂}
    {e : Node c₃} (hn : n.IsSound options σ)
    (hparts : n.parts σ = [⟨σ, a⟩, ⟨σ, b⟩, ⟨σ, e⟩]) (ha : a.IsFormed options σ)
    (hb : b.IsFormed options σ) (he : e.IsFormed options σ) : n.IsFormed options σ := by
  refine isFormed_of_parts hn ?_
  rw [hparts]
  exact List.forall_mem_cons.mpr
    ⟨ha, List.forall_mem_cons.mpr ⟨hb, List.forall_mem_singleton.mpr he⟩⟩

/-- Two children of which only the first one has to be proper. -/
theorem isFormed_of_first {c₁ c₂ : Category} {a : Node c₁} {b : Node c₂}
    (hn : n.IsSound options σ) (hparts : n.parts σ = [⟨σ, a⟩, ⟨σ, b⟩])
    (hplain : n.properParts σ = [⟨σ, a⟩]) (ha : a.IsFormed options σ)
    (hb : b.Everywhere (Node.Abides options) σ) : n.IsFormed options σ := by
  refine isFormed_of_everywhere hn ?_ ?_
  · rw [hparts]
    exact List.forall_mem_cons.mpr ⟨ha.everywhere, List.forall_mem_singleton.mpr hb⟩
  · rw [hplain]
    exact List.forall_mem_singleton.mpr ha.proper

theorem isFormed_namePattern {id : Identifier} (h : Keyword.ofWord? id.name = none) :
    Node.IsFormed options σ (.namePattern id) :=
  isFormed_leaf ⟨trivial, trivial, trivial, h⟩ rfl

theorem isFormed_identifier {id : Identifier} (h : Keyword.ofWord? id.name = none) :
    Node.IsFormed options σ (.identifier id) :=
  isFormed_leaf ⟨trivial, trivial, trivial, h⟩ rfl

/-- A leaf where it need not be proper. -/
theorem everywhere_name (hn : n.Obeys options σ) (hheeds : n.Heeds σ) (hform : n.HasForm)
    (hparts : n.parts σ = []) : n.Everywhere (Node.Abides options) σ := by
  refine everywhere_leaf ⟨hn, hheeds, hform, fun site hsite => ?_⟩ hparts
  have hmem := properParts_subset n site hsite
  rw [hparts] at hmem
  cases hmem

/-- A name with a value, where the name need not be proper. -/
theorem everywhere_of_name {id : Identifier} {value : Expression} (hn : n.Obeys options σ)
    (hheeds : n.Heeds σ) (hform : n.HasForm)
    (hparts : n.parts σ = [⟨σ, Node.namePattern id⟩, ⟨σ, value⟩])
    (hplain : n.properParts σ = [⟨σ, value⟩]) (hv : value.IsFormed options σ) :
    n.Everywhere (Node.Abides options) σ := by
  refine everywhere_of_parts ⟨hn, hheeds, hform, ?_⟩ ?_
  · rw [hplain]
    exact List.forall_mem_singleton.mpr hv.proper
  · rw [hparts]
    refine List.forall_mem_cons.mpr ⟨?_, List.forall_mem_singleton.mpr hv.everywhere⟩
    exact everywhere_name trivial trivial trivial rfl

theorem isFormed_ofList {xs : List (Node c)} :
    (ofList xs).IsFormed options σ ↔ ∀ x ∈ xs, x.IsFormed options σ := by
  induction xs with
  | nil => exact ⟨fun _ => nofun, fun _ => isFormed_leaf (.free rfl) rfl⟩
  | cons x xs ih =>
    rw [List.forall_mem_cons, ← ih]
    refine ⟨fun h => ?_, fun h => isFormed_of_two (.free rfl) rfl h.1 h.2⟩
    have hproper := h.everywhere.here.proper
    exact ⟨⟨hproper _ List.mem_cons_self, h.everywhere.part List.mem_cons_self⟩,
      ⟨hproper _ (List.mem_cons_of_mem _ List.mem_cons_self),
        h.everywhere.part (List.mem_cons_of_mem _ List.mem_cons_self)⟩⟩

theorem isFormed_ofOption {x : Option (Node c)} :
    (ofOption x).IsFormed options σ ↔ ∀ y, x = some y → y.IsFormed options σ := by
  cases x with
  | none => exact ⟨fun _ => nofun, fun _ => isFormed_leaf (.free rfl) rfl⟩
  | some y =>
    refine ⟨?_, fun h => isFormed_of_one (.free rfl) rfl (h y rfl)⟩
    rintro h _ ⟨⟩
    exact ⟨h.everywhere.here.proper _ List.mem_cons_self, h.everywhere.part List.mem_cons_self⟩

theorem isFormed_ofHoleyList {xs : List (Option (Node c))} :
    (ofHoleyList xs).IsFormed options σ ↔ ∀ x, some x ∈ xs → x.IsFormed options σ := by
  unfold ofHoleyList
  rw [isFormed_ofList, List.forall_mem_map]
  simp only [isFormed_ofOption]
  exact ⟨fun h x hx => h (some x) hx x rfl, fun h x hx y hy => h y (hy ▸ hx)⟩

theorem isFormed_reduceOption {xs : List (Option (Node c))}
    (h : ∀ x, some x ∈ xs → x.IsFormed options σ) : ∀ x ∈ xs.reduceOption, x.IsFormed options σ :=
  fun x hx => h x (List.reduceOption_mem_iff.mp hx)

end Formed

section Conversion

variable {c' : Category} {isBinding : Bool} {n : Node c} {m : Node c'} {e : Expression}
  {q : Pattern}

/-- What becomes of a proper node is proper. -/
theorem isProper_of_converts (h : Converts isBinding n m)
    (hn : n.Everywhere (Node.Abides options) σ) (hproper : n.IsProper σ) : m.IsProper σ := by
  induction h with
  | name => exact hproper
  | default => exact hproper.2
  | item value_ok ih =>
    exact ih (hn.part List.mem_cons_self) (hn.here.proper _ List.mem_cons_self)
  | _ => trivial

theorem isProper_of_part {c₁ : Category} {a : Node c₁} (hn : n.Everywhere (Node.Abides options) σ)
    (h : Converts isBinding a m) (ha : ⟨σ, a⟩ ∈ n.properParts σ) : m.IsProper σ :=
  isProper_of_converts h (hn.part (properParts_subset n _ ha)) (hn.here.proper _ ha)

/-- The rules have made sure of a pattern if they have made sure of its expression. -/
theorem abides_of_converts (h : Converts isBinding e q)
    (he : e.Everywhere (Node.Abides options) σ) : q.Abides options σ := by
  cases h with
  | name => exact ⟨trivial, trivial, trivial, nofun⟩
  | object members =>
    refine ⟨members.restLast, trivial, trivial, List.forall_mem_singleton.mpr ?_⟩
    exact isProper_of_part he members List.mem_cons_self
  | array elements =>
    refine ⟨elements.restLast, trivial, trivial, List.forall_mem_singleton.mpr ?_⟩
    exact isProper_of_part he elements List.mem_cons_self
  | default => exact ⟨he.here.obeys, he.here.heeds, trivial, he.here.proper⟩
  | member _ _ _ computed =>
    cases computed with
    | true => exact ⟨trivial, trivial, trivial, he.here.proper⟩
    | false => exact ⟨trivial, he.here.heeds, trivial, he.here.proper⟩

/-- What gathers the rest has no default value. -/
theorem not_isDefault_of_restArgument (h : Converted.restArgument q = .ok q) :
    q.isDefault = false := by
  cases q <;> first | rfl | cases h

/-- The conversion hands on what is formed to a pattern without spreads. -/
theorem isFormed_of_converts (h : Converts isBinding n m) (hl : m.isSpreadless = true)
    (hn : n.IsFormed options σ) : m.IsFormed options σ := by
  refine ⟨isProper_of_converts h hn.everywhere hn.proper,
    h.everywhere (fun {c c' n m} hc hl hn => ?_) hl hn.everywhere⟩
  cases hc with
  | name id => exact abides_of_converts (.name id : Converts isBinding _ _) hn
  | object members => exact abides_of_converts (.object members) hn
  | array elements => exact abides_of_converts (.array elements) hn
  | default span target value =>
    exact abides_of_converts (.default span target value : Converts isBinding _ _) hn
  | member _ _ _ _ free => exact abides_of_converts (.member _ _ _ _ free) hn
  | item value_ok => exact abides_of_converts value_ok (hn.part List.mem_cons_self)
  | spread argument_ok gathers =>
    refine ⟨⟨not_isDefault_of_restArgument gathers, argument_ok.not_isRest⟩, trivial, trivial,
      List.forall_mem_singleton.mpr ?_⟩
    exact isProper_of_part hn argument_ok List.mem_cons_self
  | rest => exact ⟨hn.here.obeys, trivial, trivial, hn.here.proper⟩
  | @property _ _ _ _ _ shorthand value_ok =>
    cases shorthand with
    | true =>
      refine ⟨value_ok.not_isRest, ?_, trivial, hn.here.proper⟩
      obtain ⟨id, rfl, rfl | ⟨span, v, rfl⟩⟩ := hn.here.heeds
      · cases value_ok
        exact ⟨id, rfl, .inl rfl⟩
      · cases value_ok
        exact ⟨id, rfl, .inr ⟨span, v, rfl⟩⟩
    | false =>
      refine ⟨value_ok.not_isRest, trivial, trivial, List.forall_mem_cons.mpr
        ⟨hn.here.proper _ List.mem_cons_self, List.forall_mem_singleton.mpr ?_⟩⟩
      exact isProper_of_part hn value_ok (List.mem_cons_of_mem _ List.mem_cons_self)
  | spreadMember => cases hl
  | nil | hole => exact ⟨trivial, trivial, trivial, nofun⟩
  | cons head tail =>
    refine ⟨trivial, trivial, trivial,
      List.forall_mem_cons.mpr ⟨?_, List.forall_mem_singleton.mpr ?_⟩⟩
    · exact isProper_of_part hn head List.mem_cons_self
    · exact isProper_of_part hn tail (List.mem_cons_of_mem _ List.mem_cons_self)
  | present value =>
    refine ⟨trivial, trivial, trivial, List.forall_mem_singleton.mpr ?_⟩
    exact isProper_of_part hn value List.mem_cons_self

/-- A target that has become a default begins where its assignment does. -/
theorem lt_of_converts_default {start : Place} (h : Converts isBinding e q) (he : e.Starts start)
    (hq : q.isDefault = true) : start.offset < q.span.start.offset := by
  cases h with
  | default => exact he.assignment_lt rfl
  | _ => cases hq

end Conversion

end Legality

end EcmaTree
