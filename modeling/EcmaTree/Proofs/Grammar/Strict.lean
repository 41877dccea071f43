import EcmaTree.Proofs.Grammar.Patterns
import EcmaTree.Proofs.Target.Names

/-!
# Strict code takes no reserved name

A region of strict code is a program or the body of a function that a directive or the code
around it makes strict, together with the name of the function and what its parameters bind. A
directive is seen only after the name and the parameters have been read, so these are checked at
the end of the body. All other targets are checked where they are read, whatever they turn out
to be a part of. The default value of a shorthand property is checked with the pattern that takes
it up.
-/

namespace EcmaTree

open EcmaTree.Grammar EcmaTree.Reading Node

namespace Node

/-- The name that a function binds. -/
def functionName? : {c : Category} → Node c → Option Identifier
  | _, .function _ id _ _ _ | _, .functionDeclaration _ id _ _ _ => id
  | _, _ => none

/-- What a node assigns to: the left side of an assignment or of the head of a loop. -/
def assigned? : {c : Category} → Node c → Option Pattern
  | _, .assignment _ _ target _ | _, .targetPattern target => some target
  | _, _ => none

/-- A property of an object literal without a value of its own. -/
def isShorthandMember : {c : Category} → Node c → Bool
  | _, .property _ _ _ _ _ shorthand => shorthand
  | _, _ => false

/-- No reserved name is a target in the pattern, at whatever depth. -/
def TakesNoReserved (p : Pattern) : Prop :=
  ∀ id : Identifier, HasTarget ⟨_, p⟩ ⟨_, .namePattern id⟩ → id.name ∉ reservedNames

/-- Below the site `root` strict code binds, assigns and changes no reserved name and deletes no
bare name. -/
structure IsStrictLegal (root : Site) : Prop where
  bound : ∀ {x p}, root.Occurs x → x.node.bindsStrictly x.scope = true → p ∈ x.node.bindings →
    p.TakesNoReserved
  named : ∀ {x id}, root.Occurs x → x.node.bindsStrictly x.scope = true →
    x.node.functionName? = some id → id.name ∉ reservedNames
  assigned : ∀ {x y p}, root.Occurs x → x.Below y → x.node.isShorthandMember = false →
    y.scope.strict = true → y.node.assigned? = some p → p.TakesNoReserved
  changed : ∀ {σ span operator isPrefix id},
    root.Occurs ⟨σ, .update span operator isPrefix (.identifier id)⟩ → σ.strict = true →
    id.name ∉ reservedNames
  deleted : ∀ {σ span id}, root.Occurs ⟨σ, .unary span .delete (.identifier id)⟩ →
    σ.strict = false

end Node

namespace Strict

variable {options : ParseOptions} {σ : Scope} {c : Category} {n : Node c} {p : Pattern}
  {isBinding : Bool}

/-- A check in strict code comes through no reserved name. -/
theorem not_reserved_of_passes {id : Identifier}
    (h : Passes true isBinding (.namePattern id)) : id.name ∉ reservedNames := by
  obtain ⟨names, names', h⟩ := h
  refine not_mem_reservedNames (Bool.eq_false_iff.mpr fun hreserved => ?_)
  simp only [checkTargets, Check.name, hreserved, Bool.and_self, if_true] at h
  cases h

theorem takesNoReserved_of_passes (h : p.Passes true isBinding) : p.TakesNoReserved :=
  fun _ ht => not_reserved_of_passes (passes_of_hasTarget h ht)

theorem not_reserved_of_obeys {id : Identifier} (h : n.Obeys options σ)
    (hs : n.bindsStrictly σ = true) (hid : n.functionName? = some id) :
    id.name ∉ reservedNames := by
  cases n with
  | function | functionDeclaration =>
    exact not_reserved_of_passes (passes_of_check (h.name_ok id hid hs))
  | _ => cases hid

/-- An assignment that is not the value of a shorthand property has to be proper. -/
theorem mem_properParts {x y : Site} (h : x.Below y) (hx : x.node.Heeds x.scope)
    (hshorthand : x.node.isShorthandMember = false) (hy : y.node.assigned?.isSome = true) :
    y ∈ x.node.properParts x.scope := by
  obtain ⟨σ, n⟩ := x
  unfold Site.Below at h
  cases n with
  | member span obj prop computed | memberPattern span obj prop computed =>
    cases computed with
    | true => exact h
    | false =>
      obtain ⟨id, rfl⟩ := hx
      rcases List.mem_cons.mp h with rfl | h
      · exact List.mem_cons_self
      · obtain rfl := List.mem_singleton.mp h
        cases hy
  | property _ _ _ _ _ shorthand =>
    obtain rfl : shorthand = false := hshorthand
    exact h
  | propertyPattern _ _ value shorthand =>
    cases shorthand with
    | false => exact h
    | true =>
      rcases List.mem_cons.mp h with rfl | h
      · exact List.mem_cons_self
      · obtain rfl := List.mem_singleton.mp h
        cases value <;> cases hy
  | assignment _ _ target | defaultPattern _ target =>
    rcases List.mem_cons.mp h with rfl | h
    · cases target <;> cases hy
    · exact h
  | _ => exact h

theorem passes_of_assigned (hproper : n.IsProper σ) (hheeds : n.Heeds σ)
    (hp : n.assigned? = some p) : p.Passes σ.strict false := by
  cases n with
  | assignment =>
    cases hp
    exact passes_of_check hproper.1
  | targetPattern =>
    cases hp
    exact passes_of_check hheeds
  | _ => cases hp

theorem isStrictLegal_of_isFormed {root : Site} (h : root.node.IsFormed options root.scope) :
    IsStrictLegal root where
  bound hx hstrict hp := by
    have hpasses := Patterns.passes_of_obeys (h.everywhere _ hx).obeys hp
    rw [hstrict] at hpasses
    exact takesNoReserved_of_passes hpasses
  named hx hstrict hid := not_reserved_of_obeys (h.everywhere _ hx).obeys hstrict hid
  assigned {x y p} hx hy hshorthand hstrict hp := by
    have habides := h.everywhere x hx
    have hmem := mem_properParts hy habides.heeds hshorthand (by simp [hp])
    have hpasses := passes_of_assigned (habides.proper y hmem)
      (h.everywhere y (hx.tail hy)).heeds hp
    rw [hstrict] at hpasses
    exact takesNoReserved_of_passes hpasses
  changed hx hstrict := by
    have hlegal := (h.everywhere _ hx).heeds _ rfl
    rw [hstrict] at hlegal
    exact not_reserved_of_passes (passes_of_check hlegal)
  deleted hx := Bool.eq_false_iff.mpr fun hstrict =>
    (h.everywhere _ hx).heeds rfl hstrict _ rfl

end Strict

/-- In an accepted program strict code takes no reserved name: neither what it binds, assigns or
changes nor the names and parameters of its functions are reserved, and it deletes no bare name. -/
theorem isStrictLegal_of_parse {options : ParseOptions} {text : List Char} {file : File}
    (h : (parse options text).result = .ok file) :
    IsStrictLegal ⟨file.scope options, file.program.body⟩ :=
  Strict.isStrictLegal_of_isFormed (isFormed_of_parse h)

/-- The directive makes the parameters of the inner function strict, while the function around it
takes reserved names. -/
theorem isStrictLegal_of_parse_directive : ∃ file,
    (parse {}
      "function eval(let) \x7b (function (a) \x7b 'use strict'; [a.b] = a; a++ \x7d) \x7d".toList).result =
        .ok file ∧ IsStrictLegal ⟨file.scope {}, file.program.body⟩ := by
  obtain ⟨file, h⟩ := exists_of_isOk (x := (parse {}
    "function eval(let) \x7b (function (a) \x7b 'use strict'; [a.b] = a; a++ \x7d) \x7d".toList).result)
    (by decide +kernel)
  exact ⟨file, h, isStrictLegal_of_parse h⟩

end EcmaTree
