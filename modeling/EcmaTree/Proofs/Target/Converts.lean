import EcmaTree.Proofs.Target.Shape
import EcmaTree.Proofs.Tree.Site

/-!
# What the conversion makes of an expression

The conversion as a relation between a node and the node that it becomes, with one rule for
each form that has a pattern. A property that holds everywhere in an expression holds everywhere
in its pattern if each rule hands it on.
-/

namespace EcmaTree

open Node

/-- The first node becomes the second one. With `isBinding` the names in it are bound. -/
inductive Converts (isBinding : Bool) : {c c' : Category} → Node c → Node c' → Prop
  | name (id : Identifier) : Converts isBinding (.identifier id) (.namePattern id)
  | object {span : Span} {ms : Node (.list .member)} {ps : Node (.list .patternMember)}
      (members : Converts isBinding ms ps) :
      Converts isBinding (.object span ms) (.objectPattern span ps)
  | array {span : Span} {es : Node (.list (.option .element))}
      {ps : Node (.list (.option .pattern))} (elements : Converts isBinding es ps) :
      Converts isBinding (.array span es) (.arrayPattern span ps)
  | default (span : Span) (target : Pattern) (value : Expression) :
      Converts isBinding (.assignment span .assign target value) (.defaultPattern span target value)
  | member (span : Span) (obj prop : Expression) (computed : Bool) (free : isBinding = false) :
      Converts isBinding (.member span obj prop computed) (.memberPattern span obj prop computed)
  | item {value : Expression} {p : Pattern} (value_ok : Converts isBinding value p) :
      Converts isBinding (.item value) p
  | spread {span : Span} {argument : Expression} {p : Pattern}
      (argument_ok : Converts isBinding argument p) (gathers : Converted.restArgument p = .ok p) :
      Converts isBinding (.spread span argument) (.restPattern span p)
  | rest (span : Span) (argument : Pattern) :
      Converts isBinding (.rest span argument) (.restPattern span argument)
  | property {span : Span} {key : Key} {value : Expression} {p : Pattern} {method shorthand : Bool}
      (value_ok : Converts isBinding value p) :
      Converts isBinding (.property span key value .init method shorthand)
        (.propertyPattern span key p shorthand)
  | spreadMember (span : Span) (argument : Expression) :
      Converts isBinding (.spreadMember span argument) (.spreadPattern span argument)
  | nil {c c' : Category} : Converts isBinding (.nil (c := c)) (.nil (c := c'))
  | cons {c c' : Category} {x : Node c} {y : Node c'} {xs : Node (.list c)} {ys : Node (.list c')}
      (head : Converts isBinding x y) (tail : Converts isBinding xs ys)
      (last : y.isRest = true → ys = .nil) : Converts isBinding (.cons x xs) (.cons y ys)
  | hole {c c' : Category} : Converts isBinding (.absent (c := c)) (.absent (c := c'))
  | present {c c' : Category} {x : Node c} {y : Node c'} (value : Converts isBinding x y) :
      Converts isBinding (.present x) (.present y)

namespace Converts

variable {isBinding : Bool}

/-- Only elements become a rest. -/
theorem not_isRest {e : Expression} {p : Pattern} (h : Converts isBinding e p) :
    p.isRest = false := by
  cases h <;> rfl

theorem not_isRest_member {m : Member} {p : PatternMember} (h : Converts isBinding m p) :
    p.isRest = false := by
  cases h <;> rfl

end Converts

/-- What the conversion of a node comes to, for the nodes that have one. -/
def Node.ConvertsAsRelated : {c : Category} → Node c → Prop
  | .expression, e => ∀ isBinding p, e.convert isBinding = .ok p → Converts isBinding e p
  | .element, e => ∀ isLast isBinding p, e.convert isLast isBinding = .ok p →
    Converts isBinding e p ∧ (p.isRest = true → isLast = true)
  | .member, m => ∀ isBinding p, m.convert isBinding = .ok p → Converts isBinding m p
  | .list .member, ms => ∀ isBinding ps, Converted.members isBinding ms.convert = .ok ps →
    Converts isBinding ms (ofList ps)
  | .list (.option .element), es => ∀ isBinding ps, Converted.list isBinding es.convert = .ok ps →
    Converts isBinding es (ofHoleyList ps)
  | .option .element, .present e => ∀ isLast isBinding p, e.convert isLast isBinding = .ok p →
    Converts isBinding e p ∧ (p.isRest = true → isLast = true)
  | _, _ => True

theorem restArgument_ok {p q : Pattern} (h : Converted.restArgument p = .ok q) :
    q = p ∧ Converted.restArgument p = .ok p := by
  obtain rfl := restArgument_eq h
  exact ⟨rfl, h⟩

theorem convertsAsRelated {c : Category} (n : Node c) : n.ConvertsAsRelated := by
  induction n with
  | identifier id =>
    intro isBinding p h
    cases h
    exact .name id
  | object span members ih =>
    intro isBinding p h
    obtain ⟨ms, hm, h⟩ := except_bind_eq_ok h
    cases h
    exact .object (ih isBinding ms hm)
  | array span elements ih =>
    intro isBinding p h
    obtain ⟨es, he, h⟩ := except_bind_eq_ok h
    cases h
    exact .array (ih isBinding es he)
  | assignment span operator target value iht ihv =>
    intro isBinding p h
    change (if operator = .assign then _ else _) = _ at h
    split at h
    · rename_i ho
      cases h
      exact ho ▸ .default span target value
    · cases h
  | member span obj prop computed iho ihp =>
    intro isBinding p h
    change (if isBinding then _ else _) = _ at h
    split at h
    · cases h
    · rename_i hfree
      cases h
      exact .member span obj prop computed (Bool.eq_false_iff.mpr hfree)
  | item value ih =>
    intro isLast isBinding p h
    have hp := ih isBinding p h
    exact ⟨.item hp, fun hrest => absurd hrest (by simp [hp.not_isRest])⟩
  | spread span argument ih =>
    intro isLast isBinding p h
    change (if isLast then _ else _) = _ at h
    split at h
    · rename_i hlast
      obtain ⟨q, hq, h⟩ := except_bind_eq_ok h
      obtain ⟨q', hq', hp⟩ := except_bind_eq_ok h
      obtain ⟨rfl, hgathers⟩ := restArgument_ok hq'
      cases hp
      exact ⟨.spread (ih isBinding q' hq) hgathers, fun _ => hlast⟩
    · cases h
  | rest span argument ih =>
    intro isLast isBinding p h
    change (if isLast then _ else _) = _ at h
    split at h
    · rename_i hlast
      cases h
      exact ⟨.rest span argument, fun _ => hlast⟩
    · cases h
  | property span key value kind method shorthand ihk ihv =>
    intro isBinding p h
    change (if kind = .init then _ else _) = _ at h
    split at h
    · rename_i hkind
      obtain ⟨q, hq, h⟩ := except_bind_eq_ok h
      cases h
      exact hkind ▸ .property (ihv isBinding q hq)
    · cases h
  | spreadMember span argument ih =>
    intro isBinding p h
    cases h
    exact .spreadMember span argument
  | @nil item =>
    cases item with
    | member =>
      intro isBinding ps h
      cases h
      exact .nil
    | option item =>
      cases item with
      | element =>
        intro isBinding ps h
        cases h
        exact .nil
      | _ => trivial
    | _ => trivial
  | @cons item head tail ihh iht =>
    cases item with
    | member =>
      intro isBinding ps h
      obtain ⟨p, hp, h⟩ := except_bind_eq_ok h
      obtain ⟨rest, hr, h⟩ := except_bind_eq_ok h
      cases h
      have hhead := ihh isBinding p hp
      exact .cons hhead (iht isBinding rest hr) fun hrest =>
        absurd hrest (by simp [hhead.not_isRest_member])
    | option item =>
      cases item with
      | element =>
        intro isBinding ps h
        cases head with
        | absent =>
          obtain ⟨rest, hr, h⟩ := except_bind_eq_ok h
          cases h
          exact .cons .hole (iht isBinding rest hr) nofun
        | present e =>
          obtain ⟨p, hp, h⟩ := except_bind_eq_ok h
          obtain ⟨rest, hr, h⟩ := except_bind_eq_ok h
          cases h
          obtain ⟨hhead, hlast⟩ := ihh _ isBinding p hp
          refine .cons (.present hhead) (iht isBinding rest hr) fun hrest => ?_
          -- no element comes after the one that gathers the rest
          cases tail with
          | nil =>
            cases hr
            rfl
          | cons next more => cases hlast hrest
      | _ => trivial
    | _ => trivial
  | @absent item => cases item <;> trivial
  | @present item value ih =>
    cases item with
    | element => exact ih
    | _ => trivial
  | _ =>
    first
    | trivial
    | intro isBinding p h
      cases h

theorem converts_of_toPattern {e : Expression} {p : Pattern} {isBinding : Bool}
    (h : e.toPattern isBinding = .ok p) : Converts isBinding e p :=
  convertsAsRelated e isBinding p h

theorem converts_of_patternsOfElements {items : List (Option Element)}
    {ps : List (Option Pattern)} {isBinding : Bool}
    (h : patternsOfElements items isBinding = .ok ps) :
    Converts isBinding (ofHoleyList items) (ofHoleyList ps) := by
  refine convertsAsRelated (ofHoleyList items) isBinding ps ?_
  rw [convert_ofHoleyList]
  exact h

namespace Converts

variable {isBinding : Bool} {c c' : Category}

/-- In a converted list only the last entry gathers the rest. -/
theorem restLast : ∀ {xs : Node (.list c)} {ys : Node (.list c')}, Converts isBinding xs ys →
    ys.RestLast
  | _, _, .nil => .nil
  | _, _, .cons _ tail last => by
    refine List.Pairwise.cons (fun z hz => Bool.eq_false_iff.mpr fun hrest => ?_) tail.restLast
    rw [last hrest] at hz
    cases hz

/-- What the rules of the conversion hand on from each node holds everywhere in a pattern. -/
theorem everywhere {P : Scope → {c : Category} → Node c → Prop} {σ : Scope}
    (hP : ∀ {c c' : Category} {n : Node c} {p : Node c'}, Converts isBinding n p →
      p.isSpreadless = true → n.Everywhere P σ → P σ p)
    {n : Node c} {p : Node c'} (h : Converts isBinding n p) (hl : p.isSpreadless = true)
    (hn : n.Everywhere P σ) : p.Everywhere P σ := by
  induction h with
  | name id => exact everywhere_leaf (hP (.name id) hl hn) rfl
  | object members ih =>
    refine everywhere_of_parts (hP (.object members) hl hn) ?_
    exact List.forall_mem_singleton.mpr (ih hl (hn.part List.mem_cons_self))
  | array elements ih =>
    refine everywhere_of_parts (hP (.array elements) hl hn) ?_
    exact List.forall_mem_singleton.mpr (ih hl (hn.part List.mem_cons_self))
  | default span target value =>
    exact everywhere_of_parts (hP (.default span target value) hl hn) (everywhere_iff.mp hn).2
  | member span obj prop computed free =>
    exact everywhere_of_parts (hP (.member span obj prop computed free) hl hn)
      (everywhere_iff.mp hn).2
  | item value_ok ih => exact ih hl (hn.part List.mem_cons_self)
  | spread argument_ok gathers ih =>
    refine everywhere_of_parts (hP (.spread argument_ok gathers) hl hn) ?_
    exact List.forall_mem_singleton.mpr (ih hl (hn.part List.mem_cons_self))
  | rest span argument =>
    exact everywhere_of_parts (hP (.rest span argument) hl hn) (everywhere_iff.mp hn).2
  | property value_ok ih =>
    refine everywhere_of_parts (hP (.property value_ok) hl hn) ?_
    refine List.forall_mem_cons.mpr ⟨hn.part List.mem_cons_self, ?_⟩
    exact List.forall_mem_singleton.mpr
      (ih hl (hn.part (List.mem_cons_of_mem _ List.mem_cons_self)))
  | spreadMember => cases hl
  | nil => exact everywhere_leaf (hP .nil hl hn) rfl
  | cons head tail last ihh iht =>
    obtain ⟨hl₁, hl₂⟩ := Bool.and_eq_true_iff.mp hl
    refine everywhere_of_parts (hP (.cons head tail last) hl hn) ?_
    refine List.forall_mem_cons.mpr ⟨ihh hl₁ (hn.part List.mem_cons_self), ?_⟩
    exact List.forall_mem_singleton.mpr
      (iht hl₂ (hn.part (List.mem_cons_of_mem _ List.mem_cons_self)))
  | hole => exact everywhere_leaf (hP .hole hl hn) rfl
  | present value ih =>
    refine everywhere_of_parts (hP (.present value) hl hn) ?_
    exact List.forall_mem_singleton.mpr (ih hl (hn.part List.mem_cons_self))

end Converts

end EcmaTree
