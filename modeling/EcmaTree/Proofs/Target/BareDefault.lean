import EcmaTree.Proofs.Tree.BareDefault
import Mathlib.Data.List.ReduceOption

/-!
# Conversion takes up what an expression holds open

When an expression becomes a pattern that passes its check, the shorthand defaults on its
spine become defaults of the pattern, so nothing is held open any more. The check is needed
for spreads of objects only, whose argument the conversion keeps as it is.
-/

namespace EcmaTree

open Node

variable {c : Category}

/-- No object pattern that a check of targets comes to holds a spread. -/
def Node.isSpreadless : {c : Category} → Node c → Bool
  | _, .objectPattern _ members => isSpreadless members
  | _, .arrayPattern _ elements => isSpreadless elements
  | _, .defaultPattern _ target _ => isSpreadless target
  | _, .restPattern _ argument | _, .restMember _ argument => isSpreadless argument
  | _, .propertyPattern _ _ value _ => isSpreadless value
  | _, .spreadPattern _ _ => false
  | _, .cons head tail => isSpreadless head && isSpreadless tail
  | _, .present value => isSpreadless value
  | _, _ => true

namespace Node

theorem bind_eq_ok {p q : Check Unit} {names names' : Option (List String)}
    (h : (p >>= fun _ => q) names = .ok () names') :
    ∃ names'', p names = .ok () names'' ∧ q names'' = .ok () names' := by
  change EStateM.bind _ _ names = _ at h
  unfold EStateM.bind at h
  split at h
  · rename_i names'' hp
    exact ⟨names'', hp, h⟩
  · cases h

theorem isSpreadless_of_checkTargets {n : Node c} {strict isBinding : Bool}
    {names names' : Option (List String)}
    (h : n.checkTargets strict isBinding names = .ok () names') : n.isSpreadless = true := by
  induction n generalizing names names' with
  | objectPattern span members ih => exact ih h
  | arrayPattern span elements ih => exact ih h
  | defaultPattern span target value iht ihv => exact iht h
  | restPattern span argument ih =>
    obtain ⟨names'', -, h⟩ := bind_eq_ok h
    exact ih h
  | restMember span argument ih =>
    obtain ⟨names'', -, h⟩ := bind_eq_ok h
    exact ih h
  | propertyPattern span key value shorthand ihk ihv => exact ihv h
  | spreadPattern span argument ih => cases h
  | cons head tail ihh iht =>
    obtain ⟨names'', hh, ht⟩ := bind_eq_ok h
    exact Bool.and_eq_true_iff.mpr ⟨ihh hh, iht ht⟩
  | present value ih => exact ih h
  | _ => rfl

theorem isSpreadless_of_check {strict isBinding : Bool} {names : Option (List String)}
    {p : Pattern} (h : (Pattern.check strict isBinding names p).1 = .ok ()) :
    p.isSpreadless = true := by
  unfold Pattern.check at h
  split at h
  · rename_i names' hc
    exact isSpreadless_of_checkTargets hc
  · cases h

theorem isSpreadless_of_checkAll {strict isBinding : Bool} {names : Option (List String)}
    {targets : List Pattern} (h : Pattern.checkAll strict isBinding names targets = .ok ()) :
    ∀ p ∈ targets, p.isSpreadless = true := by
  induction targets generalizing names with
  | nil => nofun
  | cons p rest ih =>
    unfold Pattern.checkAll at h
    split at h
    · rename_i names' hc
      exact List.forall_mem_cons.mpr ⟨isSpreadless_of_check (congrArg Prod.fst hc), ih h⟩
    · cases h

theorem isSpreadless_ofHoleyList {ps : List (Option Pattern)}
    (h : ∀ p ∈ ps.reduceOption, p.isSpreadless = true) : (ofHoleyList ps).isSpreadless = true := by
  induction ps with
  | nil => rfl
  | cons p ps ih =>
    cases p with
    | none => exact ih h
    | some p =>
      obtain ⟨hp, hps⟩ := List.forall_mem_cons.mp h
      exact Bool.and_eq_true_iff.mpr ⟨hp, ih hps⟩

/-- What the conversion of a node makes of the defaults that it holds open. -/
def ConvertsHeld : {c : Category} → Node c → Prop
  | .expression, e => ∀ isBinding p, e.convert isBinding = .ok p →
    e.defaultsHeld true false = true → p.isSpreadless = true → p.defaultsHeld false false = true
  | .element, e => ∀ isLast isBinding p, e.convert isLast isBinding = .ok p →
    e.defaultsHeld true false = true → p.isSpreadless = true → p.defaultsHeld false false = true
  | .member, m => ∀ isBinding p, m.convert isBinding = .ok p →
    m.defaultsHeld true false = true → p.isSpreadless = true → p.defaultsHeld false false = true
  | .list .member, ms => ∀ isBinding ps, Converted.members isBinding ms.convert = .ok ps →
    ms.defaultsHeld true false = true → (ofList ps).isSpreadless = true →
      (ofList ps).defaultsHeld false false = true
  | .list (.option .element), es => ∀ isBinding ps,
    Converted.list isBinding es.convert = .ok ps → es.defaultsHeld true false = true →
      (ofHoleyList ps).isSpreadless = true → (ofHoleyList ps).defaultsHeld false false = true
  | .option .element, .present e => ∀ isLast isBinding p, e.convert isLast isBinding = .ok p →
    e.defaultsHeld true false = true → p.isSpreadless = true → p.defaultsHeld false false = true
  | _, _ => True

theorem except_bind_eq_ok {ε α β : Type} {x : Except ε α} {f : α → Except ε β} {b : β}
    (h : x >>= f = .ok b) : ∃ a, x = .ok a ∧ f a = .ok b := by
  cases x with
  | error e => cases h
  | ok a => exact ⟨a, rfl, h⟩

theorem restArgument_eq {p q : Pattern} (h : Converted.restArgument p = .ok q) : q = p := by
  unfold Converted.restArgument at h
  split at h <;> cases h <;> rfl

/-- The value of a shorthand becomes its default, or else a pattern as elsewhere. -/
theorem defaultsHeld_of_shorthand {e : Expression} {p : Pattern} {isBinding : Bool}
    (ih : e.defaultsHeld true false = true → p.defaultsHeld false false = true)
    (h : e.convert isBinding = .ok p) (he : e.defaultsHeld true true = true) :
    p.defaultsHeld false true = true := by
  cases e with
  | assignment span operator target value =>
    obtain ⟨-, ht, hv⟩ := defaultsHeld_assignment.mp he
    change (if operator = .assign then _ else _) = _ at h
    split at h
    · cases h
      exact defaultsHeld_defaultPattern.mpr ⟨ht, hv⟩
    · cases h
  | _ => exact defaultsHeld_shorthand_pattern (ih he)

theorem convertsHeld (n : Node c) : n.ConvertsHeld := by
  induction n with
  | identifier id =>
    intro isBinding p h _ _
    cases h
    rfl
  | object span members ih =>
    intro isBinding p h hh hl
    obtain ⟨ms, hm, h⟩ := except_bind_eq_ok h
    cases h
    exact ih isBinding ms hm hh hl
  | array span elements ih =>
    intro isBinding p h hh hl
    obtain ⟨es, he, h⟩ := except_bind_eq_ok h
    cases h
    exact ih isBinding es he hh hl
  | assignment span operator target value iht ihv =>
    intro isBinding p h hh hl
    obtain ⟨-, ht, hv⟩ := defaultsHeld_assignment.mp hh
    change (if operator = .assign then _ else _) = _ at h
    split at h
    · cases h
      exact defaultsHeld_defaultPattern.mpr ⟨ht, hv⟩
    · cases h
  | member span obj prop computed iho ihp =>
    intro isBinding p h hh hl
    change (if isBinding then _ else _) = _ at h
    split at h
    · cases h
    · cases h
      exact hh
  | item value ih =>
    intro isLast isBinding p h hh hl
    exact ih isBinding p h hh hl
  | spread span argument ih =>
    intro isLast isBinding p h hh hl
    change (if isLast then _ else _) = _ at h
    split at h
    · obtain ⟨q, hq, h⟩ := except_bind_eq_ok h
      obtain ⟨q', hq', hp⟩ := except_bind_eq_ok h
      obtain rfl := restArgument_eq hq'
      cases hp
      exact ih isBinding q' hq hh hl
    · cases h
  | rest span argument ih =>
    intro isLast isBinding p h hh hl
    change (if isLast then _ else _) = _ at h
    split at h
    · cases h
      exact hh
    · cases h
  | property span key value kind method shorthand ihk ihv =>
    intro isBinding p h hh hl
    obtain ⟨hk, hv⟩ := defaultsHeld_property.mp hh
    change (if kind = .init then _ else _) = _ at h
    split at h
    · obtain ⟨q, hq, h⟩ := except_bind_eq_ok h
      cases h
      refine defaultsHeld_propertyPattern.mpr ⟨hk, ?_⟩
      cases shorthand with
      | false => exact ihv isBinding q hq hv hl
      | true => exact defaultsHeld_of_shorthand (fun h => ihv isBinding q hq h hl) hq hv
    · cases h
  | spreadMember span argument ih =>
    intro isBinding p h hh hl
    cases h
    cases hl
  | @nil item =>
    cases item with
    | member =>
      intro isBinding ps h _ _
      cases h
      rfl
    | option item =>
      cases item with
      | element =>
        intro isBinding ps h _ _
        cases h
        rfl
      | _ => trivial
    | _ => trivial
  | @cons item head tail ihh iht =>
    cases item with
    | member =>
      intro isBinding ps h hh hl
      obtain ⟨p, hp, h⟩ := except_bind_eq_ok h
      obtain ⟨rest, hr, h⟩ := except_bind_eq_ok h
      cases h
      obtain ⟨hhead, htail⟩ := defaultsHeld_cons.mp hh
      obtain ⟨hl₁, hl₂⟩ := Bool.and_eq_true_iff.mp hl
      exact defaultsHeld_cons.mpr ⟨ihh isBinding p hp hhead hl₁, iht isBinding rest hr htail hl₂⟩
    | option item =>
      cases item with
      | element =>
        intro isBinding ps h hh hl
        obtain ⟨hhead, htail⟩ := defaultsHeld_cons.mp hh
        cases head with
        | absent =>
          obtain ⟨rest, hr, h⟩ := except_bind_eq_ok h
          cases h
          obtain ⟨-, hl₂⟩ := Bool.and_eq_true_iff.mp hl
          exact defaultsHeld_cons.mpr ⟨rfl, iht isBinding rest hr htail hl₂⟩
        | present e =>
          obtain ⟨p, hp, h⟩ := except_bind_eq_ok h
          obtain ⟨rest, hr, h⟩ := except_bind_eq_ok h
          cases h
          obtain ⟨hl₁, hl₂⟩ := Bool.and_eq_true_iff.mp hl
          exact defaultsHeld_cons.mpr
            ⟨ihh _ isBinding p hp hhead hl₁, iht isBinding rest hr htail hl₂⟩
      | _ => trivial
    | _ => trivial
  | @absent item => cases item <;> trivial
  | @present item value ih =>
    cases item with
    | element => exact ih
    | _ => trivial
  | _ =>
    first
    | trivial
    | intro isBinding p h
      cases h

end Node

/-- A pattern that an expression becomes holds nothing open. -/
theorem defaultsHeld_of_toPattern {e : Expression} {p : Pattern} {isBinding : Bool}
    (h : e.toPattern isBinding = .ok p) (he : e.defaultsHeld true false = true)
    (hp : p.isSpreadless = true) : p.defaultsHeld false false = true :=
  convertsHeld e isBinding p h he hp

theorem convert_ofHoleyList (xs : List (Option Element)) :
    (ofHoleyList xs).convert = xs.map fun x => x.map Node.convert := by
  induction xs with
  | nil => rfl
  | cons x xs ih =>
    cases x with
    | none => exact congrArg (none :: ·) ih
    | some x => exact congrArg (some x.convert :: ·) ih

/-- As for one expression; the patterns of a list are checked one by one. -/
theorem defaultsHeld_of_patternsOfElements {items : List (Option Element)}
    {ps : List (Option Pattern)} {isBinding : Bool}
    (h : patternsOfElements items isBinding = .ok ps)
    (hitems : ∀ x, some x ∈ items → x.defaultsHeld true false = true)
    (hl : ∀ p ∈ ps.reduceOption, p.isSpreadless = true) :
    ∀ p ∈ ps.reduceOption, p.defaultsHeld false false = true := by
  have hc : Converted.list isBinding (ofHoleyList items).convert = .ok ps := by
    rw [convert_ofHoleyList]
    exact h
  have hp := convertsHeld (ofHoleyList items) isBinding ps hc (defaultsHeld_ofHoleyList.mpr hitems)
    (isSpreadless_ofHoleyList hl)
  intro p hmem
  exact defaultsHeld_ofHoleyList.mp hp p (List.reduceOption_mem_iff.mp hmem)

end EcmaTree
