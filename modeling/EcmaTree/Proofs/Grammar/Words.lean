import EcmaTree.Proofs.Grammar.Patterns

/-!
# Where keywords may be names

A property name is read with all words allowed, before it is known whether it is more than a
name. So a keyword comes into a tree as a property name, and a shorthand property repeats it in
the place of its value. Nowhere else is a keyword a name.
-/

namespace EcmaTree

open EcmaTree.Grammar Node

namespace Node

/-- The name that an expression or a pattern consists of. -/
def name? : {c : Category} → Node c → Option Identifier
  | _, .identifier id | _, .namePattern id => some id
  | _, _ => none

/-- The names of functions and labels, which a node holds itself. -/
def heldName? : {c : Category} → Node c → Option Identifier
  | _, .function _ id _ _ _ | _, .functionDeclaration _ id _ _ _ | _, .breakStatement _ id
  | _, .continueStatement _ id => id
  | _, .labeledStatement _ label _ => some label
  | _, _ => none

/-- The name of a shorthand property, or that name with a default value, in the place of the
value of the property. -/
inductive IsShorthandValue (id : Identifier) :
    ((c : Category) × Node c) → ((c : Category) × Node c) → Prop
  | name {span kind method} :
    IsShorthandValue id ⟨_, .property span (.nameKey id) (.identifier id) kind method true⟩
      ⟨_, .identifier id⟩
  | default {span kind method whole value} :
    IsShorthandValue id
      ⟨_, .property span (.nameKey id) (.assignment whole .assign (.namePattern id) value) kind
        method true⟩
      ⟨_, .assignment whole .assign (.namePattern id) value⟩
  | namePattern {span} :
    IsShorthandValue id ⟨_, .propertyPattern span (.nameKey id) (.namePattern id) true⟩
      ⟨_, .namePattern id⟩
  | defaultPattern {span whole value} :
    IsShorthandValue id
      ⟨_, .propertyPattern span (.nameKey id) (.defaultPattern whole (.namePattern id) value) true⟩
      ⟨_, .defaultPattern whole (.namePattern id) value⟩

/-- The places below the node `x` where a name in the tree `root` may be a keyword. -/
inductive AllowsKeyword (root : (c : Category) × Node c) (id : Identifier) :
    ((c : Category) × Node c) → Prop
  | member {span obj} : AllowsKeyword root id ⟨_, .member span obj (.identifier id) false⟩
  | memberPattern {span obj} :
    AllowsKeyword root id ⟨_, .memberPattern span obj (.identifier id) false⟩
  | shorthand {x y} (value : IsShorthandValue id x y) (name : y.2.name? = some id) :
    AllowsKeyword root id x
  | default {x y} (outer : Occurs root x) (value : IsShorthandValue id x y)
    (target : ⟨_, .namePattern id⟩ ∈ y.2.children) : AllowsKeyword root id y

/-- In the tree `root` keywords are names of properties only. -/
structure KeepsKeywords (root : (c : Category) × Node c) : Prop where
  name : ∀ {x y id}, Occurs root x → y ∈ x.2.children → y.2.name? = some id →
    Keyword.ofWord? id.name ≠ none → AllowsKeyword root id x
  held : ∀ {x id}, Occurs root x → x.2.heldName? = some id → Keyword.ofWord? id.name = none

end Node

namespace Words

variable {options : ParseOptions} {root x y : Site} {id : Identifier}

/-- What a node `y` right below a node `x` may be: proper where it stands, the name of a property,
the value of a shorthand property, or what `x` assigns to. -/
inductive Part (x y : Site) : Prop
  | proper (proper : y.node.IsProper y.scope)
  | propertyName {id : Identifier} (word : y.bare = ⟨_, .identifier id⟩)
    (allows : ∀ root, AllowsKeyword root id x.bare)
  | shorthand {id : Identifier} (value : IsShorthandValue id x.bare y.bare)
  | target {p : Pattern} (target : y.bare = ⟨_, p⟩)
    (proper : x.node.IsProper x.scope → y.node.IsProper y.scope)
    (name : ∀ id z, IsShorthandValue id z x.bare → p = .namePattern id)

theorem part_of_below (h : x.Below y) (hx : x.node.Abides options x.scope) : Part x y := by
  by_cases hmem : y ∈ x.node.properParts x.scope
  · exact .proper (hx.proper y hmem)
  obtain ⟨σ, n⟩ := x
  unfold Site.Below at h
  cases n with
  | member span obj prop computed | memberPattern span obj prop computed =>
    cases computed with
    | true => exact absurd h hmem
    | false =>
      obtain ⟨id, rfl⟩ := hx.heeds
      rcases List.mem_cons.mp h with rfl | h
      · exact absurd List.mem_cons_self hmem
      · obtain rfl := List.mem_singleton.mp h
        exact .propertyName rfl fun root => by constructor
  | property span key value kind method shorthand =>
    cases shorthand with
    | false => exact absurd h hmem
    | true =>
      rcases List.mem_cons.mp h with rfl | h
      · exact absurd List.mem_cons_self hmem
      · obtain rfl := List.mem_singleton.mp h
        obtain ⟨id, rfl, rfl | ⟨whole, v, rfl⟩⟩ := hx.heeds
        · exact .shorthand .name
        · exact .shorthand .default
  | propertyPattern span key value shorthand =>
    cases shorthand with
    | false => exact absurd h hmem
    | true =>
      rcases List.mem_cons.mp h with rfl | h
      · exact absurd List.mem_cons_self hmem
      · obtain rfl := List.mem_singleton.mp h
        obtain ⟨id, rfl, rfl | ⟨whole, v, rfl⟩⟩ := hx.heeds
        · exact .shorthand .namePattern
        · exact .shorthand .defaultPattern
  | assignment span operator target value =>
    rcases List.mem_cons.mp h with rfl | h
    · refine .target rfl (fun hproper => hproper.2) fun id z hz => ?_
      cases hz
      rfl
    · exact absurd h hmem
  | defaultPattern span target value =>
    rcases List.mem_cons.mp h with rfl | h
    · refine .target rfl (fun hproper => hproper) fun id z hz => ?_
      cases hz
      rfl
    · exact absurd h hmem
  | _ => exact absurd h hmem

/-- A name has no parts. -/
theorem not_below_of_name (h : x.node.name? = some id) : ¬x.Below y := by
  obtain ⟨σ, n⟩ := x
  cases n with
  | identifier | namePattern => exact nofun
  | _ => cases h

/-- Every node of a formed tree is proper, a name, or the value of a shorthand property. -/
theorem isProper_or (h : root.node.IsFormed options root.scope) (hy : root.Occurs y) :
    y.node.IsProper y.scope ∨ (∃ id, y.node.name? = some id) ∨
      ∃ id x, Node.Occurs root.bare x ∧ IsShorthandValue id x y.bare := by
  induction hy with
  | refl => exact .inl h.proper
  | @tail x y hx hbelow ih =>
    cases part_of_below hbelow (h.everywhere x hx) with
    | proper hproper => exact .inl hproper
    | propertyName word =>
      obtain ⟨σ, n⟩ := y
      cases word
      exact .inr (.inl ⟨_, rfl⟩)
    | shorthand value => exact .inr (.inr ⟨_, _, occurs_of_site hx, value⟩)
    | target target proper name =>
      obtain ⟨σ, n⟩ := y
      cases target
      rcases ih with hproper | ⟨id, hname⟩ | ⟨id, z, hz, hvalue⟩
      · exact .inl (proper hproper)
      · exact absurd hbelow (not_below_of_name hname)
      · obtain rfl := name id z hvalue
        exact .inr (.inl ⟨id, rfl⟩)

theorem not_keyword_of_isProper (h : y.node.IsProper y.scope) (hname : y.node.name? = some id) :
    Keyword.ofWord? id.name = none := by
  obtain ⟨σ, n⟩ := y
  cases n with
  | identifier | namePattern =>
    cases hname
    exact h
  | _ => cases hname

/-- A keyword in the place of a name stands where the node above it allows one. -/
theorem allowsKeyword_of_below (h : root.node.IsFormed options root.scope) (hx : root.Occurs x)
    (hbelow : x.Below y) (hname : y.node.name? = some id) (hk : Keyword.ofWord? id.name ≠ none) :
    AllowsKeyword root.bare id x.bare := by
  cases part_of_below hbelow (h.everywhere x hx) with
  | proper hproper => exact absurd (not_keyword_of_isProper hproper hname) hk
  | propertyName word allows =>
    obtain ⟨σ, n⟩ := y
    cases word
    cases hname
    exact allows _
  | @shorthand id' value =>
    obtain rfl : id' = id := by
      obtain ⟨τ, m⟩ := y
      generalize x.bare = z at value
      cases value with
      | name | namePattern => exact Option.some.inj hname
      | default | defaultPattern => cases hname
    exact .shorthand value hname
  | target target proper name =>
    rcases isProper_or h hx with hproper | ⟨id', hx'⟩ | ⟨id', z, hz, hvalue⟩
    · exact absurd (not_keyword_of_isProper (proper hproper) hname) hk
    · exact absurd hbelow (not_below_of_name hx')
    · have hmem := hbelow.bare
      obtain ⟨σ, n⟩ := y
      cases target
      obtain rfl := name id' z hvalue
      cases hname
      exact .default hz hvalue hmem

theorem not_keyword_of_heeds {σ : Scope} {c : Category} {n : Node c} (h : n.Heeds σ)
    (hid : n.heldName? = some id) : Keyword.ofWord? id.name = none := by
  cases n with
  | function | functionDeclaration | breakStatement | continueStatement => exact h id hid
  | labeledStatement =>
    cases hid
    exact h
  | _ => cases hid

theorem keepsKeywords_of_isFormed (h : root.node.IsFormed options root.scope) :
    KeepsKeywords root.bare where
  name {x y id} hx hy hname hk := by
    obtain ⟨τ, hsite⟩ := exists_site_of_occurs root.scope hx
    rw [← map_parts τ x.2] at hy
    obtain ⟨site, hbelow, rfl⟩ := List.mem_map.mp hy
    exact allowsKeyword_of_below h hsite hbelow hname hk
  held hx hid := by
    obtain ⟨τ, hsite⟩ := exists_site_of_occurs root.scope hx
    exact not_keyword_of_heeds (h.everywhere _ hsite).heeds hid

end Words

/-- In an accepted program a name is a keyword only as the property of a member expression or in
the value of a shorthand property, whose key it repeats. -/
theorem keepsKeywords_of_parse {options : ParseOptions} {text : List Char} {file : File}
    (h : (parse options text).result = .ok file) : KeepsKeywords ⟨_, file.program.body⟩ := by
  change KeepsKeywords (Site.bare ⟨file.scope options, file.program.body⟩)
  exact Words.keepsKeywords_of_isFormed (isFormed_of_parse h)

/-- Each of the places: a member, a shorthand in a literal, and one with a default in a pattern. -/
theorem keepsKeywords_of_parse_shorthand : ∃ file,
    (parse {} "var {if, else = a.case} = {new}".toList).result = .ok file ∧
      KeepsKeywords ⟨_, file.program.body⟩ := by
  obtain ⟨file, h⟩ := exists_of_isOk (x := (parse {}
    "var {if, else = a.case} = {new}".toList).result) (by decide +kernel)
  exact ⟨file, h, keepsKeywords_of_parse h⟩

end EcmaTree
