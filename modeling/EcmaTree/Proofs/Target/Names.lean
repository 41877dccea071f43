import EcmaTree.Proofs.Target.Shape

/-!
# The names that a pattern binds

A pattern binds the names among its targets, at whatever depth they are. A check that gathers
names adds those of the pattern to the ones it has, in the order in which they stand, and comes
through only if no name comes twice. In strict code some names are never to be taken.
-/

namespace EcmaTree

/-- The names that strict code neither binds nor assigns: two that mean something in every function,
and the words that it reserves. -/
def reservedNames : List String :=
  ["arguments", "eval", "implements", "interface", "let", "package", "private", "protected",
   "public", "static", "yield"]

/-- A check refuses exactly these names. -/
theorem isReservedTarget_iff {name : String} :
    isReservedTarget name = true ↔ name ∈ reservedNames := by
  simp only [isReservedTarget, isStrictBindReserved, isStrictReserved, Bool.or_eq_true,
    List.contains_iff_mem, reservedNames, List.mem_cons, List.not_mem_nil, or_false]
  tauto

theorem not_mem_reservedNames {name : String} (h : isReservedTarget name = false) :
    name ∉ reservedNames :=
  fun hname => Bool.eq_false_iff.mp h (isReservedTarget_iff.mpr hname)

/-- The names among the targets in a node, from left to right. -/
def Node.boundNames : {c : Category} → Node c → List String
  | _, .namePattern id => [id.name]
  | _, .objectPattern _ members => boundNames members
  | _, .arrayPattern _ elements => boundNames elements
  | _, .defaultPattern _ target _ => boundNames target
  | _, .restPattern _ argument | _, .restMember _ argument => boundNames argument
  | _, .propertyPattern _ _ value _ => boundNames value
  | _, .cons head tail => boundNames head ++ boundNames tail
  | _, .present value => boundNames value
  | _, _ => []

namespace Node

variable {c : Category} {n : Node c} {name : String}

theorem boundNames_subset {m : (c : Category) × Node c} (h : m ∈ n.targets) :
    m.2.boundNames ⊆ n.boundNames := by
  cases n with
  | cons head tail =>
    rcases List.mem_cons.mp h with rfl | h
    · exact List.subset_append_left _ _
    · obtain rfl := List.mem_singleton.mp h
      exact List.subset_append_right _ _
  | objectPattern | arrayPattern | defaultPattern | restPattern | restMember | propertyPattern
  | present =>
    obtain rfl := List.mem_singleton.mp h
    exact List.Subset.refl _
  | _ => cases h

theorem boundNames_subset_of_hasTarget {n m : (c : Category) × Node c} (h : HasTarget n m) :
    m.2.boundNames ⊆ n.2.boundNames := by
  induction h with
  | refl => exact List.Subset.refl _
  | tail _ hm ih => exact List.Subset.trans (boundNames_subset hm) ih

theorem exists_hasTarget (h : name ∈ n.boundNames) :
    ∃ id : Identifier, HasTarget ⟨c, n⟩ ⟨_, .namePattern id⟩ ∧ id.name = name := by
  induction n with
  | namePattern id => exact ⟨id, .refl, (List.mem_singleton.mp h).symm⟩
  | objectPattern _ _ ih | arrayPattern _ _ ih | present _ ih | restPattern _ _ ih
  | restMember _ _ ih =>
    obtain ⟨id, hid, hname⟩ := ih h
    exact ⟨id, .head List.mem_cons_self hid, hname⟩
  | defaultPattern _ _ _ ih _ | propertyPattern _ _ _ _ _ ih =>
    obtain ⟨id, hid, hname⟩ := ih h
    exact ⟨id, .head List.mem_cons_self hid, hname⟩
  | cons _ _ head tail =>
    rcases List.mem_append.mp h with h | h
    · obtain ⟨id, hid, hname⟩ := head h
      exact ⟨id, .head List.mem_cons_self hid, hname⟩
    · obtain ⟨id, hid, hname⟩ := tail h
      exact ⟨id, .head (List.mem_cons_of_mem _ List.mem_cons_self) hid, hname⟩
  | _ => cases h

/-- What a pattern binds are the names among its targets, at whatever depth. -/
theorem mem_boundNames : name ∈ n.boundNames ↔
    ∃ id : Identifier, HasTarget ⟨c, n⟩ ⟨_, .namePattern id⟩ ∧ id.name = name := by
  refine ⟨exists_hasTarget, ?_⟩
  rintro ⟨id, ht, rfl⟩
  exact boundNames_subset_of_hasTarget ht List.mem_cons_self

end Node

namespace Check

/-- The check gathers these names behind those that it has, and all of them differ. -/
def Gathers (x : Check Unit) (gathered : List String) : Prop :=
  ∀ names after, x (some names) = .ok () after → names.Nodup →
    after = some (gathered.reverse ++ names) ∧ (gathered.reverse ++ names).Nodup

theorem gathers_pure : Gathers (pure ()) [] := by
  rintro names _ ⟨⟩ hn
  exact ⟨rfl, hn⟩

theorem gathers_throw {e : ParseError} {gathered : List String} : Gathers (throw e) gathered := by
  rintro names after ⟨⟩

theorem Gathers.seq {x y : Check Unit} {first second : List String} (hx : Gathers x first)
    (hy : Gathers y second) : Gathers (x >>= fun _ => y) (first ++ second) := by
  intro names after h hn
  obtain ⟨between, hfirst, hsecond⟩ := Node.bind_eq_ok h
  obtain ⟨rfl, hn'⟩ := hx _ _ hfirst hn
  rw [List.reverse_append, List.append_assoc]
  exact hy _ _ hsecond hn'

theorem gathers_gather (id : Identifier) : Gathers (gather id) [id.name] := by
  intro names after h hn
  change (if names.contains id.name then _ else _) = _ at h
  split at h
  · cases h
  next hnew =>
    cases h
    exact ⟨rfl, List.nodup_cons.mpr ⟨by simpa using hnew, hn⟩⟩

theorem gathers_name {strict isBinding : Bool} (id : Identifier) :
    Gathers (name strict isBinding id) [id.name] := by
  unfold name
  split
  · exact gathers_throw
  · exact gathers_gather id

theorem gathers_restArgument {p : Pattern} : Gathers (restArgument p) [] := by
  unfold restArgument
  split
  · exact gathers_throw
  · exact gathers_pure

end Check

variable {strict isBinding : Bool}

/-- One case for each form that has targets in it. -/
theorem Node.gathers_checkTargets {c : Category} (n : Node c) :
    Check.Gathers (n.checkTargets strict isBinding) n.boundNames := by
  induction n with
  | namePattern id => exact Check.gathers_name id
  | memberPattern span obj prop computed =>
    cases isBinding with
    | true => exact Check.gathers_throw
    | false => exact Check.gathers_pure
  | spreadPattern span argument => exact Check.gathers_throw
  | objectPattern _ _ ih | arrayPattern _ _ ih | present _ ih => exact ih
  | defaultPattern _ _ _ ih _ => exact ih
  | propertyPattern _ _ _ _ _ ih => exact ih
  | restPattern _ _ ih | restMember _ _ ih => exact Check.gathers_restArgument.seq ih
  | cons _ _ head tail => exact head.seq tail
  | _ => exact Check.gathers_pure

namespace Pattern

theorem gathers_check {p : Pattern} {names : List String} {after : Option (List String)}
    (h : p.check strict isBinding (some names) = (.ok (), after)) (hn : names.Nodup) :
    after = some (p.boundNames.reverse ++ names) ∧ (p.boundNames.reverse ++ names).Nodup := by
  unfold check at h
  split at h <;> cases h
  next hc => exact p.gathers_checkTargets _ _ hc hn

theorem nodup_append_of_checkAll {names : List String} {ps : List Pattern} (hn : names.Nodup)
    (h : checkAll strict isBinding (some names) ps = .ok ()) :
    ((Node.ofList ps).boundNames.reverse ++ names).Nodup := by
  induction ps generalizing names with
  | nil => exact hn
  | cons p ps ih =>
    unfold checkAll at h
    split at h
    next names' hcheck =>
      obtain ⟨rfl, hn'⟩ := gathers_check hcheck hn
      rw [Node.ofList, Node.boundNames, List.reverse_append, List.append_assoc]
      exact ih hn' h
    · cases h

/-- Patterns that come through a check that gathers names bind no name twice. -/
theorem nodup_of_checkAll {ps : List Pattern}
    (h : checkAll strict isBinding (some []) ps = .ok ()) : (Node.ofList ps).boundNames.Nodup := by
  have hnodup := nodup_append_of_checkAll List.nodup_nil h
  rw [List.append_nil] at hnodup
  exact (List.reverse_perm _).nodup_iff.mp hnodup

end Pattern

end EcmaTree
