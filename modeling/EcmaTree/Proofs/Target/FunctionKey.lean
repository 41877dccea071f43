import EcmaTree.Proofs.Target.Converts
import EcmaTree.Proofs.Tree.Occurrence

/-!
# Properties with the key `function`

A property name may be any word. The word `function` is special among them because the token
reader takes it for the beginning of a function, which a method has and any other property has
not. The conversion of an expression to a pattern keeps all keys, so such a property is still
seen in the pattern.
-/

namespace EcmaTree

namespace Node

/-- A property with the key `function` that is no method. -/
def isFunctionKeyed : {c : Category} → Node c → Bool
  | _, .property _ (.nameKey id) _ .init false _ => id.name == "function"
  | _, .propertyPattern _ (.nameKey id) _ _ => id.name == "function"
  | _, _ => false

/-- Nowhere in the tree is a property with the key `function` that is no method. -/
def IsUnkeyed {c : Category} (n : Node c) : Prop :=
  n.any isFunctionKeyed = false

instance {c : Category} (n : Node c) : Decidable n.IsUnkeyed :=
  inferInstanceAs (Decidable (_ = false))

variable {c c₁ c₂ c₃ c₄ : Category} {n : Node c}

theorem isUnkeyed_iff :
    n.IsUnkeyed ↔ isFunctionKeyed n = false ∧ ∀ m ∈ n.children, m.2.IsUnkeyed := by
  unfold IsUnkeyed
  rw [any_eq_children, Bool.or_eq_false_iff, List.any_eq_false]
  simp only [Bool.not_eq_true]

namespace IsUnkeyed

variable {a : Node c₁} {b : Node c₂} {e : Node c₃} {f : Node c₄}
  {rest : List ((c : Category) × Node c)}

theorem here (h : n.IsUnkeyed) : isFunctionKeyed n = false :=
  (isUnkeyed_iff.mp h).1

theorem first (h : n.IsUnkeyed) (hn : n.children = ⟨c₁, a⟩ :: rest) : a.IsUnkeyed :=
  (isUnkeyed_iff.mp h).2 ⟨c₁, a⟩ (by simp [hn])

theorem second (h : n.IsUnkeyed) (hn : n.children = ⟨c₁, a⟩ :: ⟨c₂, b⟩ :: rest) : b.IsUnkeyed :=
  (isUnkeyed_iff.mp h).2 ⟨c₂, b⟩ (by simp [hn])

theorem third (h : n.IsUnkeyed) (hn : n.children = ⟨c₁, a⟩ :: ⟨c₂, b⟩ :: ⟨c₃, e⟩ :: rest) :
    e.IsUnkeyed :=
  (isUnkeyed_iff.mp h).2 ⟨c₃, e⟩ (by simp [hn])

theorem fourth (h : n.IsUnkeyed)
    (hn : n.children = ⟨c₁, a⟩ :: ⟨c₂, b⟩ :: ⟨c₃, e⟩ :: ⟨c₄, f⟩ :: rest) : f.IsUnkeyed :=
  (isUnkeyed_iff.mp h).2 ⟨c₄, f⟩ (by simp [hn])

end IsUnkeyed

theorem isUnkeyed_ofList {xs : List (Node c)} :
    (ofList xs).IsUnkeyed ↔ ∀ x ∈ xs, x.IsUnkeyed := by
  induction xs with
  | nil => exact ⟨fun _ => nofun, fun _ => rfl⟩
  | cons x xs ih =>
    rw [List.forall_mem_cons, ← ih, isUnkeyed_iff]
    simp [isFunctionKeyed, children, ofList]

theorem isUnkeyed_ofOption {x : Option (Node c)} :
    (ofOption x).IsUnkeyed ↔ ∀ y ∈ x, y.IsUnkeyed := by
  cases x with
  | none => exact ⟨fun _ => nofun, fun _ => rfl⟩
  | some y =>
    rw [isUnkeyed_iff]
    simp [isFunctionKeyed, children, ofOption]

theorem isUnkeyed_ofHoleyList {xs : List (Option (Node c))} :
    (ofHoleyList xs).IsUnkeyed ↔ ∀ x, some x ∈ xs → x.IsUnkeyed := by
  unfold ofHoleyList
  rw [isUnkeyed_ofList, List.forall_mem_map]
  simp only [isUnkeyed_ofOption, Option.mem_def]
  exact ⟨fun h x hx => h (some x) hx x rfl, fun h x hx y hy => h y (hy ▸ hx)⟩

/-- Where a pattern has no such property its expression had none. -/
theorem isUnkeyed_of_converts {c' : Category} {isBinding : Bool} {m : Node c'}
    (h : Converts isBinding n m) (hm : m.IsUnkeyed) : n.IsUnkeyed := by
  induction h with
  | item _ ih => exact isUnkeyed_iff.mpr ⟨rfl, List.forall_mem_singleton.mpr (ih hm)⟩
  | name | nil | hole => rfl
  | object _ ih | array _ ih | spread _ _ ih | present _ ih =>
    exact isUnkeyed_iff.mpr ⟨rfl, List.forall_mem_singleton.mpr (ih (hm.first rfl))⟩
  | default | member | rest | spreadMember =>
    exact isUnkeyed_iff.mpr ⟨rfl, (isUnkeyed_iff.mp hm).2⟩
  | @property _ key _ _ method _ _ ih =>
    refine isUnkeyed_iff.mpr ⟨?_, ?_⟩
    · have hkey := hm.here
      cases key <;> cases method <;> first | rfl | exact hkey
    · exact List.forall_mem_cons.mpr
        ⟨hm.first rfl, List.forall_mem_singleton.mpr (ih (hm.second rfl))⟩
  | cons _ _ _ ihh iht =>
    exact isUnkeyed_iff.mpr ⟨rfl, List.forall_mem_cons.mpr
      ⟨ihh (hm.first rfl), List.forall_mem_singleton.mpr (iht (hm.second rfl))⟩⟩

end Node

end EcmaTree
