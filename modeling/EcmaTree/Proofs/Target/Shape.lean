import EcmaTree.Proofs.Target.BareDefault
import Mathlib.Logic.Relation

/-!
# The shape of patterns

What a check of targets comes through holds of every target in a pattern, at whatever depth.
So a pattern that is bound holds no member expression as a target, and no rest of a checked
pattern has a default value. Keys, default values and the objects of members are no targets.
-/

namespace EcmaTree.Node

variable {c : Category} {strict isBinding : Bool}

/-- An entry that gathers the rest of its list. -/
def isRest : {c : Category} → Node c → Bool
  | _, .restPattern _ _ | _, .restMember _ _ => true
  | _, .present x => isRest x
  | _, _ => false

/-- An item that only the parameters of an arrow function may have. -/
def isRestElement : {c : Category} → Node c → Bool
  | _, .rest _ _ => true
  | _, .present x => isRestElement x
  | _, _ => false

def isDefault : {c : Category} → Node c → Bool
  | _, .defaultPattern _ _ _ => true
  | _, _ => false

def isMemberPattern : {c : Category} → Node c → Bool
  | _, .memberPattern _ _ _ _ => true
  | _, _ => false

/-- No entry that gathers the rest is followed by another entry. -/
def RestLast (xs : Node (.list c)) : Prop :=
  xs.toList.Pairwise fun x _ => x.isRest = false

theorem restLast_nil : RestLast (.nil : Node (.list c)) :=
  .nil

theorem restLast_singleton (x : Node c) : RestLast (.cons x .nil) :=
  List.pairwise_singleton _ _

theorem RestLast.cons {x : Node c} {xs : Node (.list c)} (hx : x.isRest = false)
    (hxs : xs.RestLast) : RestLast (.cons x xs) :=
  List.Pairwise.cons (fun _ _ => hx) hxs

/-- Leaving out holes puts nothing behind the rest. -/
theorem restLast_reduceOption {xs : List (Option (Node c))} (h : (ofHoleyList xs).RestLast) :
    (ofList xs.reduceOption).RestLast := by
  unfold RestLast ofHoleyList at *
  rw [toList_ofList, List.pairwise_map] at h
  rw [toList_ofList]
  refine List.Pairwise.filterMap id (fun x y hxy x' hx y' hy => ?_) h
  cases hx
  exact hxy

/-- The targets right below a node. -/
def targets : {c : Category} → Node c → List ((c : Category) × Node c)
  | _, .objectPattern _ members => [⟨_, members⟩]
  | _, .arrayPattern _ elements => [⟨_, elements⟩]
  | _, .defaultPattern _ target _ => [⟨_, target⟩]
  | _, .restPattern _ argument | _, .restMember _ argument => [⟨_, argument⟩]
  | _, .propertyPattern _ _ value _ => [⟨_, value⟩]
  | _, .cons head tail => [⟨_, head⟩, ⟨_, tail⟩]
  | _, .present value => [⟨_, value⟩]
  | _, _ => []

/-- The second node is the first one or a target somewhere below it. -/
abbrev HasTarget : ((c : Category) × Node c) → ((c : Category) × Node c) → Prop :=
  Relation.ReflTransGen fun n m => m ∈ n.2.targets

/-- A check of targets comes through the node. -/
def Passes (strict isBinding : Bool) (n : Node c) : Prop :=
  ∃ names names', n.checkTargets strict isBinding names = .ok () names'

theorem passes_of_mem_targets {n : Node c} (h : n.Passes strict isBinding) :
    ∀ m ∈ n.targets, m.2.Passes strict isBinding := by
  obtain ⟨names, names', h⟩ := h
  cases n with
  | objectPattern | arrayPattern | defaultPattern | propertyPattern | present =>
    exact List.forall_mem_singleton.mpr ⟨names, names', h⟩
  | restPattern | restMember =>
    obtain ⟨between, -, h⟩ := bind_eq_ok h
    exact List.forall_mem_singleton.mpr ⟨between, names', h⟩
  | cons head tail =>
    obtain ⟨between, hhead, htail⟩ := bind_eq_ok h
    exact List.forall_mem_cons.mpr
      ⟨⟨names, between, hhead⟩, List.forall_mem_singleton.mpr ⟨between, names', htail⟩⟩
  | _ => exact nofun

theorem passes_of_hasTarget {n m : (c : Category) × Node c} (h : n.2.Passes strict isBinding)
    (hm : HasTarget n m) : m.2.Passes strict isBinding := by
  induction hm with
  | refl => exact h
  | tail _ hmem ih => exact passes_of_mem_targets ih _ hmem

theorem passes_of_check {p : Pattern} {names : Option (List String)}
    (h : (Pattern.check strict isBinding names p).1 = .ok ()) : p.Passes strict isBinding := by
  unfold Pattern.check at h
  split at h
  · rename_i names' hc
    exact ⟨names, names', hc⟩
  · cases h

theorem passes_of_checkAll {ps : List Pattern} {names : Option (List String)}
    (h : Pattern.checkAll strict isBinding names ps = .ok ()) :
    ∀ p ∈ ps, p.Passes strict isBinding := by
  induction ps generalizing names with
  | nil => nofun
  | cons p ps ih =>
    unfold Pattern.checkAll at h
    split at h
    · rename_i names' hc
      exact List.forall_mem_cons.mpr ⟨passes_of_check (congrArg Prod.fst hc), ih h⟩
    · cases h

/-- A place that is bound is no member of an object. -/
theorem not_isMemberPattern_of_passes {n : Node c} (h : n.Passes strict true) :
    n.isMemberPattern = false := by
  obtain ⟨names, names', h⟩ := h
  cases n <;> first | rfl | cases h

/-- At no depth does a checked binding hold a member expression as a target. -/
theorem not_isMemberPattern_of_hasTarget {n m : (c : Category) × Node c}
    (h : n.2.Passes strict true) (hm : HasTarget n m) : m.2.isMemberPattern = false :=
  not_isMemberPattern_of_passes (passes_of_hasTarget h hm)

end EcmaTree.Node
