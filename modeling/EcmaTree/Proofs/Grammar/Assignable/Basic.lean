import EcmaTree.Proofs.Grammar.Liberty.Binding

/-!
# What stands alone while a default is pending

While the default value of a shorthand is read, and behind it up to the assignment that takes it
up, operands are cut short: no suffix, operator or question mark follows one that is not in
parentheses. What is read in the same way then is known from the tree and from the parentheses in
front of its parts.
-/

namespace EcmaTree

namespace Node

variable {c : Category} {ts : List Token} {opening : Place}

/-- What an object gathers: the rest of a pattern, or a spread, which is no target. -/
def isGathered : {c : Category} → Node c → Bool
  | _, .restMember _ _ | _, .spreadPattern _ _ => true
  | _, _ => false

/-- The default value in an assignment or a target. -/
def defaultValue : {c : Category} → Node c → List ((c : Category) × Node c)
  | _, .assignment _ _ _ value | _, .defaultPattern _ _ value => [⟨_, value⟩]
  | _, _ => []

/-- The parts of a node that are read while a default is pending if the node is. The default value
of a shorthand is among them, any other one is not. -/
def exposed : {c : Category} → Node c → List ((c : Category) × Node c)
  | _, .array _ elements => [⟨_, elements⟩]
  | _, .arrayPattern _ elements => [⟨_, elements⟩]
  | _, .object _ members => [⟨_, members⟩]
  | _, .objectPattern _ members => [⟨_, members⟩]
  | _, .assignment _ _ target _ | _, .defaultPattern _ target _ => [⟨_, target⟩]
  | _, .item value => [⟨_, value⟩]
  | _, .spread _ argument | _, .spreadMember _ argument => [⟨_, argument⟩]
  | _, .restPattern _ argument => [⟨_, argument⟩]
  | _, .property _ _ value _ _ shorthand =>
    ⟨_, value⟩ :: if shorthand then value.defaultValue else []
  | _, .propertyPattern _ _ value shorthand =>
    ⟨_, value⟩ :: if shorthand then value.defaultValue else []
  | _, .cons head tail => [⟨_, head⟩, ⟨_, tail⟩]
  | _, .present value => [⟨_, value⟩]
  | _, _ => []

/-- A pending default cuts nothing off: a node is in parentheses behind `opening`, or it ends with
an operand and its exposed parts stand alone as well. -/
inductive StandsAlone (ts : List Token) (opening : Place) : {c : Category} → Node c → Prop
  | expression {e : Expression} (h : IsParenthesized ts opening e.span.start) :
      StandsAlone ts opening e
  | pattern {p : Pattern} (h : IsParenthesized ts opening p.span.start) (one : p.isRest = false) :
      StandsAlone ts opening p
  | whole {c : Category} {n : Node c} (simple : n.isComposed = false)
      (listed : n.isGathered = false)
      (parts : ∀ m ∈ n.exposed, StandsAlone ts opening m.2) : StandsAlone ts opening n

namespace StandsAlone

theorem parts_of_ne {n : Node c} (h : n.StandsAlone ts opening) (he : c ≠ .expression)
    (hp : c ≠ .pattern) : n.isGathered = false ∧ ∀ m ∈ n.exposed, m.2.StandsAlone ts opening := by
  cases h with
  | expression => exact absurd rfl he
  | pattern => exact absurd rfl hp
  | whole simple listed parts => exact ⟨listed, parts⟩

/-- What is not in parentheses has parts that stand alone. -/
theorem parts_of_expression {e : Expression} (h : e.StandsAlone ts opening)
    (hplain : ¬IsParenthesized ts opening e.span.start) :
    e.isComposed = false ∧ ∀ m ∈ e.exposed, m.2.StandsAlone ts opening := by
  cases h with
  | expression h => exact absurd h hplain
  | whole simple listed parts => exact ⟨simple, parts⟩

theorem parts_of_pattern {p : Pattern} (h : p.StandsAlone ts opening)
    (hplain : ¬IsParenthesized ts opening p.span.start) :
    ∀ m ∈ p.exposed, m.2.StandsAlone ts opening := by
  cases h with
  | pattern h => exact absurd h hplain
  | whole simple listed parts => exact parts

theorem parts_of_rest {p : Pattern} (h : p.StandsAlone ts opening) (hrest : p.isRest = true) :
    ∀ m ∈ p.exposed, m.2.StandsAlone ts opening := by
  cases h with
  | pattern h one => cases one.symm.trans hrest
  | whole simple listed parts => exact parts

theorem nil : (nil : Node (.list c)).StandsAlone ts opening :=
  .whole rfl rfl nofun

theorem absent : (absent : Node (.option c)).StandsAlone ts opening :=
  .whole rfl rfl nofun

theorem cons_iff {x : Node c} {xs : Node (.list c)} :
    (cons x xs).StandsAlone ts opening ↔ x.StandsAlone ts opening ∧ xs.StandsAlone ts opening := by
  constructor
  · intro h
    obtain ⟨-, hparts⟩ := h.parts_of_ne nofun nofun
    exact ⟨hparts _ List.mem_cons_self, hparts _ (List.mem_cons_of_mem _ List.mem_cons_self)⟩
  · rintro ⟨hx, hxs⟩
    exact .whole rfl rfl (List.forall_mem_cons.mpr ⟨hx, List.forall_mem_singleton.mpr hxs⟩)

theorem present_iff {x : Node c} :
    (present x).StandsAlone ts opening ↔ x.StandsAlone ts opening := by
  constructor
  · intro h
    exact (h.parts_of_ne nofun nofun).2 _ List.mem_cons_self
  · exact fun h => .whole rfl rfl (List.forall_mem_singleton.mpr h)

end StandsAlone

/-- Whether a node stands alone wherever it is written. Only a shorthand exposes a default value. -/
def isExposable : {c : Category} → Node c → (isShorthand : Bool) → Bool
  | _, .array _ elements, _ | _, .arrayPattern _ elements, _ => isExposable elements false
  | _, .object _ members, _ => isExposable members false
  | _, .objectPattern _ members, _ => isExposable members false
  | _, .assignment _ _ target value, isShorthand | _, .defaultPattern _ target value, isShorthand =>
    isExposable target false && (!isShorthand || isExposable value false)
  | _, .item value, _ => isExposable value false
  | _, .spread _ argument, _ | _, .spreadMember _ argument, _ => isExposable argument false
  | _, .restPattern _ argument, _ => isExposable argument false
  | _, .property _ _ value _ _ shorthand, _ => isExposable value shorthand
  | _, .propertyPattern _ _ value shorthand, _ => isExposable value shorthand
  | _, .cons head tail, _ => isExposable head false && isExposable tail false
  | _, .present value, _ => isExposable value false
  | _, n, _ => !n.isComposed && !n.isGathered

theorem standsAlone_of_isExposable {n : Node c} {isShorthand : Bool}
    (h : n.isExposable isShorthand = true) :
    n.StandsAlone ts opening ∧
      (isShorthand = true → ∀ v ∈ n.defaultValue, v.2.StandsAlone ts opening) := by
  induction n generalizing isShorthand with
  | array _ _ ih | arrayPattern _ _ ih | object _ _ ih | objectPattern _ _ ih | item _ ih
  | spread _ _ ih | spreadMember _ _ ih | restPattern _ _ ih | present _ ih =>
    exact ⟨.whole rfl rfl (List.forall_mem_singleton.mpr (ih h).1), fun _ => nofun⟩
  | assignment _ _ _ _ iht ihv | defaultPattern _ _ _ iht ihv =>
    obtain ⟨htarget, hvalue⟩ := Bool.and_eq_true_iff.mp h
    refine ⟨.whole rfl rfl (List.forall_mem_singleton.mpr (iht htarget).1), ?_⟩
    rintro rfl
    exact List.forall_mem_singleton.mpr (ihv hvalue).1
  | property _ _ _ _ _ shorthand _ ih | propertyPattern _ _ _ shorthand _ ih =>
    obtain ⟨hvalue, hdefault⟩ := ih h
    refine ⟨.whole rfl rfl (List.forall_mem_cons.mpr ⟨hvalue, ?_⟩), fun _ => nofun⟩
    cases shorthand with
    | true => exact hdefault rfl
    | false => exact nofun
  | cons _ _ ihh iht =>
    obtain ⟨hhead, htail⟩ := Bool.and_eq_true_iff.mp h
    exact ⟨StandsAlone.cons_iff.mpr ⟨(ihh hhead).1, (iht htail).1⟩, fun _ => nofun⟩
  | _ =>
    obtain ⟨hsimple, hlisted⟩ := Bool.and_eq_true_iff.mp h
    exact ⟨.whole (by simpa using hsimple) (by simpa using hlisted) nofun, fun _ => nofun⟩

end Node

open Node

namespace Converts

variable {isBinding : Bool} {c c' : Category} {n : Node c} {m : Node c'} {ts : List Token}
  {opening : Place}

theorem defaultValue_eq {e : Expression} {p : Pattern} (h : Converts isBinding e p) :
    e.defaultValue = p.defaultValue := by
  cases h <;> rfl

/-- An expression stands alone if the target that it becomes does. -/
theorem standsAlone (h : Converts isBinding n m) (hm : m.StandsAlone ts opening) :
    n.StandsAlone ts opening := by
  induction h with
  | name | rest => exact .whole rfl rfl nofun
  | object members ih | array members ih =>
    cases hm with
    | pattern h => exact .expression h
    | whole simple listed parts =>
      exact .whole rfl rfl (List.forall_mem_singleton.mpr (ih (parts _ List.mem_cons_self)))
  | default =>
    cases hm with
    | pattern h => exact .expression h
    | whole simple listed parts => exact .whole rfl rfl parts
  | member =>
    cases hm with
    | pattern h => exact .expression h
    | whole simple => cases simple
  | item value_ok ih => exact .whole rfl rfl (List.forall_mem_singleton.mpr (ih hm))
  | spread argument_ok gathers ih =>
    have parts := hm.parts_of_rest rfl
    exact .whole rfl rfl (List.forall_mem_singleton.mpr (ih (parts _ List.mem_cons_self)))
  | @property _ _ value p _ shorthand value_ok ih =>
    obtain ⟨-, parts⟩ := hm.parts_of_ne nofun nofun
    obtain ⟨hvalue, hdefault⟩ := List.forall_mem_cons.mp parts
    rw [← value_ok.defaultValue_eq] at hdefault
    exact .whole rfl rfl (List.forall_mem_cons.mpr ⟨ih hvalue, hdefault⟩)
  | spreadMember => cases (hm.parts_of_ne nofun nofun).1
  | nil => exact .nil
  | cons head tail last ihh iht =>
    obtain ⟨hhead, htail⟩ := StandsAlone.cons_iff.mp hm
    exact StandsAlone.cons_iff.mpr ⟨ihh hhead, iht htail⟩
  | hole => exact .absent
  | present value ih => exact StandsAlone.present_iff.mpr (ih (StandsAlone.present_iff.mp hm))

end Converts

end EcmaTree
