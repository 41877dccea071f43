import EcmaTree.Proofs.Grammar.Legality

/-!
# The patterns of accepted programs are well formed

A pattern is read as such, or it is converted from an expression, whose own assignments may have
patterns already. In each case a check has come through it, so what is bound holds no member
expression, what gathers the rest comes last and has no default value, and no spread of an object
literal is left. A list in parentheses that gathers a rest becomes the parameters of an arrow
function, so literals and argument lists have none.
-/

namespace EcmaTree

open EcmaTree.Grammar Node

namespace Node

/-- The parameters of a function, a method or an arrow function. -/
def parameters : {c : Category} → Node c → Node (.list .pattern)
  | _, .function _ _ params _ _ | _, .functionDeclaration _ _ params _ _
  | _, .arrow _ params _ => params
  | _, _ => .nil

/-- Whether what a node binds is bound in strict code. The body of a function decides on its name
and its parameters. -/
def bindsStrictly (σ : Scope) : {c : Category} → Node c → Bool
  | _, .function _ _ _ body _ | _, .functionDeclaration _ _ _ body _ =>
    σ.strict || body.turnsStrict
  | _, .arrow _ _ body => σ.strict || body.turnsStrict
  | _, _ => σ.strict

/-- The patterns whose names a node binds. -/
def bindings : {c : Category} → Node c → List Pattern
  | _, .declarator _ target _ => [target]
  | _, .handler _ param _ => [param]
  | _, n => n.parameters.toList

/-- The patterns right below a node that are no entries of a list. -/
def loneTargets : {c : Category} → Node c → List Pattern
  | _, .assignment _ _ target _ | _, .defaultPattern _ target _ | _, .propertyPattern _ _ target _
  | _, .targetPattern target | _, .declarator _ target _ | _, .handler _ target _
  | _, .rest _ target | _, .restPattern _ target | _, .restMember _ target => [target]
  | _, _ => []

/-- What an entry gathers the rest into. -/
def gathered? : {c : Category} → Node c → Option Pattern
  | _, .rest _ argument | _, .restPattern _ argument | _, .restMember _ argument => some argument
  | _, _ => none

/-- The patterns in the tree `root` are well formed. -/
structure IsPatternLegal (root : (c : Category) × Node c) : Prop where
  /-- What is bound is no member expression, at whatever depth of the pattern. -/
  bound : ∀ {m p t}, Occurs root m → p ∈ m.2.bindings → HasTarget ⟨_, p⟩ t →
    t.2.isMemberPattern = false
  params_rest_last : ∀ {m}, Occurs root m → m.2.parameters.RestLast
  elements_rest_last : ∀ {span elements}, Occurs root ⟨_, .arrayPattern span elements⟩ →
    elements.RestLast
  members_rest_last : ∀ {span members}, Occurs root ⟨_, .objectPattern span members⟩ →
    members.RestLast
  lone_not_rest : ∀ {m p}, Occurs root m → p ∈ m.2.loneTargets → p.isRest = false
  rest_not_default : ∀ {m p}, Occurs root m → m.2.gathered? = some p → p.isDefault = false
  no_spread : ∀ {span argument}, ¬Occurs root ⟨_, .spreadPattern span argument⟩
  array_not_rest : ∀ {span elements}, Occurs root ⟨_, .array span elements⟩ →
    ∀ x ∈ elements.toList, x.isRestElement = false
  call_not_rest : ∀ {span callee arguments}, Occurs root ⟨_, .call span callee arguments⟩ →
    ∀ x ∈ arguments.toList, x.isRestElement = false
  new_not_rest : ∀ {span callee arguments}, Occurs root ⟨_, .new span callee arguments⟩ →
    ∀ x ∈ arguments.toList, x.isRestElement = false

end Node

namespace Patterns

variable {options : ParseOptions} {σ : Scope} {c : Category} {n : Node c} {p : Pattern}

/-- What a node binds has passed the check of the code that it is bound in. -/
theorem passes_of_obeys (h : n.Obeys options σ) (hp : p ∈ n.bindings) :
    p.Passes (n.bindsStrictly σ) true := by
  cases n with
  | function | functionDeclaration | arrow => exact passes_of_checkAll h.params_ok p hp
  | declarator =>
    obtain rfl := List.mem_singleton.mp hp
    exact passes_of_check h.1
  | handler =>
    obtain rfl := List.mem_singleton.mp hp
    exact passes_of_checkAll h.1 p List.mem_cons_self
  | _ => cases hp

theorem restLast_of_obeys (h : n.Obeys options σ) : n.parameters.RestLast := by
  cases n with
  | function | functionDeclaration | arrow => exact h.rest_last
  | _ => exact restLast_nil

theorem not_isRest_of_obeys (h : n.Obeys options σ) (hp : p ∈ n.loneTargets) :
    p.isRest = false := by
  cases n with
  | assignment | defaultPattern | propertyPattern | targetPattern =>
    obtain rfl := List.mem_singleton.mp hp
    exact h
  | declarator | handler | rest | restPattern | restMember =>
    obtain rfl := List.mem_singleton.mp hp
    exact h.2
  | _ => cases hp

theorem not_isDefault_of_obeys (h : n.Obeys options σ) (hp : n.gathered? = some p) :
    p.isDefault = false := by
  cases n with
  | rest | restPattern | restMember =>
    cases hp
    exact h.1
  | _ => cases hp

theorem isPatternLegal_of_isLegal (h : n.IsLegal options σ) : IsPatternLegal ⟨c, n⟩ := by
  have obeys : ∀ {m}, Occurs ⟨c, n⟩ m → ∃ τ, m.2.Obeys options τ := by
    intro m hm
    obtain ⟨τ, hsite⟩ := exists_site_of_occurs σ hm
    exact ⟨τ, h _ hsite⟩
  exact {
    bound := fun hm hp ht => by
      obtain ⟨τ, hτ⟩ := obeys hm
      exact not_isMemberPattern_of_hasTarget (passes_of_obeys hτ hp) ht
    params_rest_last := fun hm => restLast_of_obeys (obeys hm).choose_spec
    elements_rest_last := fun hm => (obeys hm).choose_spec
    members_rest_last := fun hm => (obeys hm).choose_spec
    lone_not_rest := fun hm => not_isRest_of_obeys (obeys hm).choose_spec
    rest_not_default := fun hm => not_isDefault_of_obeys (obeys hm).choose_spec
    no_spread := fun hm => (obeys hm).choose_spec
    array_not_rest := fun hm => (obeys hm).choose_spec
    call_not_rest := fun hm => (obeys hm).choose_spec
    new_not_rest := fun hm => (obeys hm).choose_spec }

end Patterns

/-- In an accepted program no binding holds a member expression, every rest comes last and has no
default value, and neither spreads in patterns nor rests in literals and argument lists are left. -/
theorem isPatternLegal_of_parse {options : ParseOptions} {text : List Char} {file : File}
    (h : (parse options text).result = .ok file) : IsPatternLegal ⟨_, file.program.body⟩ :=
  Patterns.isPatternLegal_of_isLegal (isLegal_of_parse h)

/-- The parameters are read as patterns, the left side is converted, and its last element is an
assignment whose left side has been converted before. -/
theorem isPatternLegal_of_parse_arrow : ∃ file,
    (parse {} "(a, ...b) => { [c, {d: e.f} = g] = a; var [h, ...i] = b }".toList).result =
      .ok file ∧ IsPatternLegal ⟨_, file.program.body⟩ := by
  obtain ⟨file, h⟩ := exists_of_isOk (x := (parse {}
    "(a, ...b) => { [c, {d: e.f} = g] = a; var [h, ...i] = b }".toList).result)
    (by decide +kernel)
  exact ⟨file, h, isPatternLegal_of_parse h⟩

end EcmaTree
