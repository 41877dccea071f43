import EcmaTree.Proofs.Target.Names

/-!
# The first offence in a pattern

A check of targets goes through a pattern from left to right, each target before those inside of
it. Whether a target offends depends on the node alone, but for a name that has been gathered
before. So the check stops at the first target that offends, with the names before it gathered, and
it comes through exactly if the pattern keeps the rules for targets, whatever the order.
-/

namespace EcmaTree

namespace Node

variable {c : Category} {strict isBinding : Bool} {taken : Option (List String)}

/-- A node and the targets below it, from left to right, each one before those inside of it. -/
def reach : {c : Category} → Node c → List ((c : Category) × Node c)
  | _, .objectPattern span members => ⟨_, .objectPattern span members⟩ :: reach members
  | _, .arrayPattern span elements => ⟨_, .arrayPattern span elements⟩ :: reach elements
  | _, .defaultPattern span target value => ⟨_, .defaultPattern span target value⟩ :: reach target
  | _, .restPattern span argument => ⟨_, .restPattern span argument⟩ :: reach argument
  | _, .restMember span argument => ⟨_, .restMember span argument⟩ :: reach argument
  | _, .propertyPattern span key value shorthand =>
    ⟨_, .propertyPattern span key value shorthand⟩ :: reach value
  | _, .cons head tail => ⟨_, .cons head tail⟩ :: (reach head ++ reach tail)
  | _, .present value => ⟨_, .present value⟩ :: reach value
  | _, n => [⟨_, n⟩]

theorem mem_reach_self (n : Node c) : ⟨c, n⟩ ∈ n.reach := by
  cases n <;> exact List.mem_cons_self

theorem reach_subset {n : Node c} {m : (c : Category) × Node c} (h : m ∈ n.targets) :
    m.2.reach ⊆ n.reach := by
  cases n with
  | cons head tail =>
    rcases List.mem_cons.mp h with rfl | h
    · exact List.subset_cons_of_subset _ (List.subset_append_left _ _)
    · obtain rfl := List.mem_singleton.mp h
      exact List.subset_cons_of_subset _ (List.subset_append_right _ _)
  | objectPattern | arrayPattern | defaultPattern | restPattern | restMember | propertyPattern
  | present =>
    obtain rfl := List.mem_singleton.mp h
    exact List.subset_cons_self _ _
  | _ => cases h

theorem hasTarget_of_mem_reach {n : Node c} {m : (c : Category) × Node c} (h : m ∈ n.reach) :
    HasTarget ⟨c, n⟩ m := by
  induction n with
  | objectPattern _ _ ih | arrayPattern _ _ ih | present _ ih | restPattern _ _ ih
  | restMember _ _ ih =>
    rcases List.mem_cons.mp h with rfl | h
    · exact .refl
    · exact .head List.mem_cons_self (ih h)
  | defaultPattern _ _ _ ih _ | propertyPattern _ _ _ _ _ ih =>
    rcases List.mem_cons.mp h with rfl | h
    · exact .refl
    · exact .head List.mem_cons_self (ih h)
  | cons _ _ head tail =>
    rcases List.mem_cons.mp h with rfl | h
    · exact .refl
    rcases List.mem_append.mp h with h | h
    · exact .head List.mem_cons_self (head h)
    · exact .head (List.mem_cons_of_mem _ List.mem_cons_self) (tail h)
  | _ =>
    obtain rfl := List.mem_singleton.mp h
    exact .refl

/-- The nodes that a check reaches are the targets at whatever depth. -/
theorem mem_reach {n : Node c} {m : (c : Category) × Node c} :
    m ∈ n.reach ↔ HasTarget ⟨c, n⟩ m := by
  constructor
  · exact hasTarget_of_mem_reach
  · intro h
    have hsubset : m.2.reach ⊆ n.reach := by
      induction h with
      | refl => exact List.Subset.refl _
      | tail _ hm ih => exact List.Subset.trans (reach_subset hm) ih
    exact hsubset (mem_reach_self m.2)

/-- The name that a node is as a target. -/
def boundName? : {c : Category} → Node c → Option String
  | _, .namePattern id => some id.name
  | _, _ => none

/-- The names of some nodes in their order. -/
def namesAmong (nodes : List ((c : Category) × Node c)) : List String :=
  nodes.filterMap fun m => m.2.boundName?

theorem namesAmong_append (xs ys : List ((c : Category) × Node c)) :
    namesAmong (xs ++ ys) = namesAmong xs ++ namesAmong ys :=
  List.filterMap_append

theorem namesAmong_reach (n : Node c) : namesAmong n.reach = n.boundNames := by
  induction n with
  | cons head tail ihh iht =>
    change namesAmong (head.reach ++ tail.reach) = head.boundNames ++ tail.boundNames
    rw [namesAmong_append, ihh, iht]
  | objectPattern _ _ ih | arrayPattern _ _ ih | present _ ih | restPattern _ _ ih
  | restMember _ _ ih => exact ih
  | defaultPattern _ _ _ ih _ => exact ih
  | propertyPattern _ _ _ _ _ ih => exact ih
  | _ => rfl

/-- The names that are gathered behind some nodes, the last one first. -/
def gathered (taken : Option (List String)) (nodes : List ((c : Category) × Node c)) :
    Option (List String) :=
  taken.map ((namesAmong nodes).reverse ++ ·)

theorem gathered_nil : gathered taken [] = taken := by
  cases taken <;> rfl

theorem gathered_append (xs ys : List ((c : Category) × Node c)) :
    gathered taken (xs ++ ys) = gathered (gathered taken xs) ys := by
  cases taken with
  | none => rfl
  | some names => simp [gathered, namesAmong_append]

theorem gathered_cons (m : (c : Category) × Node c) (nodes : List ((c : Category) × Node c)) :
    gathered taken (m :: nodes) = gathered (gathered taken [m]) nodes :=
  gathered_append [m] nodes

/-- What is wrong with the argument of a rest. -/
def restOffence? : Pattern → Option ParseError
  | .defaultPattern span _ _ => some ⟨.restWithDefault, span.start⟩
  | _ => none

theorem restOffence?_eq_none {argument : Pattern} :
    restOffence? argument = none ↔ argument.isDefault = false := by
  cases argument <;> simp [restOffence?, isDefault]

/-- What is wrong with a node as a target where some names are taken. A name that is reserved in
strict code is blamed for that first. -/
def offence? (strict isBinding : Bool) (taken : Option (List String)) :
    {c : Category} → Node c → Option ParseError
  | _, .namePattern id =>
    if strict = true ∧ id.name ∈ reservedNames then
      some ⟨.reservedName isBinding id.name, id.span.start⟩
    else if taken.any (·.contains id.name) then some ⟨.repeatedName, id.span.start⟩
    else none
  | _, .memberPattern span _ _ _ => if isBinding then some ⟨.memberBinding, span.start⟩ else none
  | _, .spreadPattern span _ => some ⟨.notTarget isBinding, span.start⟩
  | _, .restPattern _ argument | _, .restMember _ argument => restOffence? argument
  | _, _ => none

/-- None of the nodes offends where it stands. -/
def IsClean (strict isBinding : Bool) (taken : Option (List String))
    (nodes : List ((c : Category) × Node c)) : Prop :=
  ∀ before m after, nodes = before ++ m :: after →
    m.2.offence? strict isBinding (gathered taken before) = none

theorem isClean_nil : IsClean strict isBinding taken [] := by
  intro before m after h
  simp at h

theorem isClean_cons {m : (c : Category) × Node c} {nodes : List ((c : Category) × Node c)} :
    IsClean strict isBinding taken (m :: nodes) ↔
      m.2.offence? strict isBinding taken = none ∧
        IsClean strict isBinding (gathered taken [m]) nodes := by
  constructor
  · intro h
    constructor
    · have hm := h [] m nodes rfl
      rwa [gathered_nil] at hm
    · intro before x after hsplit
      have hx := h (m :: before) x after (congrArg (m :: ·) hsplit)
      rwa [gathered_cons] at hx
  · rintro ⟨hm, hnodes⟩ before x after hsplit
    cases before with
    | nil =>
      cases hsplit
      rwa [gathered_nil]
    | cons y before =>
      obtain ⟨rfl, htail⟩ := List.cons.inj hsplit
      rw [gathered_cons]
      exact hnodes before x after htail

end Node

namespace Check

open Node

variable {strict isBinding : Bool} {taken : Option (List String)}

/-- Looks at nodes in order and stops at the first one that offends. -/
def walk (strict isBinding : Bool) : List ((c : Category) × Node c) → Check Unit
  | [] => pure ()
  | m :: nodes => fun taken =>
    match m.2.offence? strict isBinding taken with
    | some e => .error e taken
    | none => walk strict isBinding nodes (gathered taken [m])

variable {m : (c : Category) × Node c} {nodes : List ((c : Category) × Node c)} {e : ParseError}
  {after : Option (List String)}

theorem walk_of_offence (h : m.2.offence? strict isBinding taken = some e) :
    walk strict isBinding (m :: nodes) taken = .error e taken := by
  rw [walk]
  simp only [h]

theorem walk_of_clean (h : m.2.offence? strict isBinding taken = none) :
    walk strict isBinding (m :: nodes) taken =
      walk strict isBinding nodes (gathered taken [m]) := by
  rw [walk]
  simp only [h]

theorem walk_append (xs ys : List ((c : Category) × Node c)) :
    walk strict isBinding (xs ++ ys) =
      (walk strict isBinding xs >>= fun _ => walk strict isBinding ys) := by
  induction xs with
  | nil => rfl
  | cons m xs ih =>
    funext taken
    change _ = EStateM.bind (walk strict isBinding (m :: xs)) _ taken
    unfold EStateM.bind
    rw [List.cons_append]
    cases hm : m.2.offence? strict isBinding taken with
    | some e => rw [walk_of_offence hm, walk_of_offence hm]
    | none =>
      rw [walk_of_clean hm, walk_of_clean hm, ih]
      rfl

/-- A node that is no name and does not offend is passed by. -/
theorem walk_cons (hname : m.2.boundName? = none)
    (hplain : ∀ taken, m.2.offence? strict isBinding taken = none) :
    walk strict isBinding (m :: nodes) = walk strict isBinding nodes := by
  funext taken
  have hsame : gathered taken [m] = taken := by
    cases taken <;> simp [gathered, namesAmong, hname]
  rw [walk_of_clean (hplain taken), hsame]

/-- A walk comes through if no node offends, and then all names are gathered. -/
theorem walk_of_isClean (h : IsClean strict isBinding taken nodes) :
    walk strict isBinding nodes taken = .ok () (gathered taken nodes) := by
  induction nodes generalizing taken with
  | nil =>
    rw [gathered_nil]
    rfl
  | cons m nodes ih =>
    obtain ⟨hm, hnodes⟩ := isClean_cons.mp h
    rw [walk_of_clean hm, ih hnodes, gathered_cons m nodes]

/-- A walk that fails has come to a node that offends, and none before it does. -/
theorem exists_of_walk_error (h : walk strict isBinding nodes taken = .error e after) :
    ∃ before m rest, nodes = before ++ m :: rest ∧ IsClean strict isBinding taken before ∧
      m.2.offence? strict isBinding (gathered taken before) = some e ∧
      after = gathered taken before := by
  induction nodes generalizing taken with
  | nil => cases h
  | cons m nodes ih =>
    cases hm : m.2.offence? strict isBinding taken with
    | some e' =>
      rw [walk_of_offence hm] at h
      cases h
      exact ⟨[], m, nodes, rfl, isClean_nil, by rwa [gathered_nil], gathered_nil.symm⟩
    | none =>
      rw [walk_of_clean hm] at h
      obtain ⟨before, x, rest, rfl, hclean, hx, rfl⟩ := ih h
      rw [← gathered_cons] at hx ⊢
      exact ⟨m :: before, x, rest, rfl, isClean_cons.mpr ⟨hm, hclean⟩, hx, rfl⟩

theorem isClean_of_walk (h : walk strict isBinding nodes taken = .ok () after) :
    IsClean strict isBinding taken nodes := by
  induction nodes generalizing taken with
  | nil => exact isClean_nil
  | cons m nodes ih =>
    cases hm : m.2.offence? strict isBinding taken with
    | some e =>
      rw [walk_of_offence hm] at h
      cases h
    | none =>
      rw [walk_of_clean hm] at h
      exact isClean_cons.mpr ⟨hm, ih h⟩

theorem name_eq_walk (id : Identifier) :
    name strict isBinding id = walk strict isBinding [⟨_, .namePattern id⟩] := by
  funext taken
  unfold name walk
  have hiff : (strict && isReservedTarget id.name) = true ↔
      strict = true ∧ id.name ∈ reservedNames := by
    rw [Bool.and_eq_true, isReservedTarget_iff]
  by_cases hreserved : strict = true ∧ id.name ∈ reservedNames
  · simp only [offence?, if_pos hreserved, if_pos (hiff.mpr hreserved)]
    rfl
  · simp only [offence?, if_neg hreserved, if_neg (mt hiff.mp hreserved)]
    cases taken with
    | none => rfl
    | some names =>
      simp only [gather, Option.any_some]
      by_cases htaken : names.contains id.name = true
      · simp only [if_pos htaken]
      · simp only [if_neg htaken]
        rfl

theorem restArgument_eq_walk {argument : Pattern} (hname : m.2.boundName? = none)
    (hrest : ∀ taken, m.2.offence? strict isBinding taken = restOffence? argument) :
    restArgument argument = walk strict isBinding [m] := by
  by_cases hdefault : restOffence? argument = none
  · rw [walk_cons hname fun taken => (hrest taken).trans hdefault]
    cases argument <;> first | rfl | cases hdefault
  · funext taken
    cases argument with
    | defaultPattern span target value => rw [walk_of_offence ((hrest taken).trans rfl)]; rfl
    | _ => exact absurd rfl hdefault

/-- A rest is looked at before its argument. -/
theorem rest_eq_walk {argument : Pattern} (hname : m.2.boundName? = none)
    (hrest : ∀ taken, m.2.offence? strict isBinding taken = restOffence? argument)
    (hargument : argument.checkTargets strict isBinding = walk strict isBinding argument.reach) :
    (restArgument argument >>= fun _ => argument.checkTargets strict isBinding) =
      walk strict isBinding (m :: argument.reach) := by
  rw [← List.singleton_append, walk_append, restArgument_eq_walk hname hrest, hargument]

end Check

/-- A check looks at the targets one after another. -/
theorem Node.checkTargets_eq_walk {strict isBinding : Bool} {c : Category} (n : Node c) :
    n.checkTargets strict isBinding = Check.walk strict isBinding n.reach := by
  induction n with
  | namePattern id => exact Check.name_eq_walk id
  | memberPattern span obj prop computed =>
    funext taken
    cases isBinding <;> cases taken <;> rfl
  | spreadPattern span argument => rfl
  | objectPattern _ _ ih | arrayPattern _ _ ih | present _ ih =>
    exact ih.trans (Check.walk_cons rfl fun _ => rfl).symm
  | defaultPattern _ _ _ ih _ => exact ih.trans (Check.walk_cons rfl fun _ => rfl).symm
  | propertyPattern _ _ _ _ _ ih => exact ih.trans (Check.walk_cons rfl fun _ => rfl).symm
  | restPattern _ _ ih | restMember _ _ ih =>
    exact Check.rest_eq_walk rfl (fun _ => rfl) ih
  | cons head tail ihh iht =>
    change (head.checkTargets strict isBinding >>= fun _ => tail.checkTargets strict isBinding) =
      Check.walk strict isBinding (⟨_, .cons head tail⟩ :: (head.reach ++ tail.reach))
    rw [Check.walk_cons rfl fun _ => rfl, Check.walk_append, ihh, iht]
  | _ =>
    funext taken
    cases taken <;> rfl

namespace Node

variable {c : Category} {strict isBinding : Bool} {taken : Option (List String)}

/-- The rules for a pattern as a target: what is looked at are its targets at whatever depth, and
neither keys nor default values. -/
structure KeepsRules (strict isBinding : Bool) (taken : Option (List String)) (n : Node c) :
    Prop where
  not_reserved : strict = true → ∀ name ∈ n.boundNames, name ∉ reservedNames
  not_member : isBinding = true → ∀ m, HasTarget ⟨c, n⟩ m → m.2.isMemberPattern = false
  not_spread : ∀ span argument, ¬HasTarget ⟨c, n⟩ ⟨_, .spreadPattern span argument⟩
  rest_not_default : ∀ span argument, HasTarget ⟨c, n⟩ ⟨_, .restPattern span argument⟩ →
    argument.isDefault = false
  restMember_not_default : ∀ span argument, HasTarget ⟨c, n⟩ ⟨_, .restMember span argument⟩ →
    argument.isDefault = false
  distinct : ∀ names, taken = some names →
    n.boundNames.Nodup ∧ ∀ name ∈ n.boundNames, name ∉ names

/-- Beyond what is wrong with it anyway, a name offends if it has been gathered. -/
theorem offence?_eq_none_iff {n : Node c} :
    n.offence? strict isBinding taken = none ↔ n.offence? strict isBinding none = none ∧
      ∀ name ∈ n.boundName?, ∀ names ∈ taken, name ∉ names := by
  cases n with
  | namePattern id =>
    by_cases hreserved : strict = true ∧ id.name ∈ reservedNames
    · simp [offence?, hreserved]
    · cases taken <;> simp [offence?, boundName?, hreserved]
  | _ => simp [offence?, boundName?]

/-- Nodes are clean if nothing is wrong with each of them and their names are new. -/
theorem isClean_iff {nodes : List ((c : Category) × Node c)} :
    IsClean strict isBinding taken nodes ↔
      (∀ m ∈ nodes, m.2.offence? strict isBinding none = none) ∧
        ∀ names ∈ taken, (namesAmong nodes).Nodup ∧ ∀ name ∈ namesAmong nodes, name ∉ names := by
  induction nodes generalizing taken with
  | nil => simp [isClean_nil, namesAmong]
  | cons m nodes ih =>
    rw [isClean_cons, ih, offence?_eq_none_iff, List.forall_mem_cons]
    cases taken with
    | none => simp [gathered]
    | some names =>
      cases hm : m.2.boundName? with
      | none => simp [gathered, namesAmong, hm, and_assoc]
      | some name =>
        have hcons : namesAmong (m :: nodes) = name :: namesAmong nodes :=
          List.filterMap_cons_some hm
        have hone : gathered (some names) [m] = some (name :: names) := by
          simp [gathered, namesAmong, hm]
        simp only [hcons, hone, Option.mem_def, Option.some.injEq, forall_eq', List.nodup_cons,
          List.mem_cons, not_or]
        grind

/-- A pattern keeps the rules exactly if none of its targets offends. -/
theorem keepsRules_iff {n : Node c} :
    n.KeepsRules strict isBinding taken ↔ IsClean strict isBinding taken n.reach := by
  rw [isClean_iff, namesAmong_reach]
  constructor
  · intro h
    refine ⟨fun m hm => ?_, fun names hnames => h.distinct names hnames⟩
    obtain ⟨_, m⟩ := m
    have ht := mem_reach.mp hm
    cases m with
    | namePattern id =>
      have hname : id.name ∈ n.boundNames := mem_boundNames.mpr ⟨id, ht, rfl⟩
      cases strict with
      | true => simp [offence?, h.not_reserved rfl _ hname]
      | false => simp [offence?]
    | memberPattern =>
      cases isBinding with
      | true => cases h.not_member rfl _ ht
      | false => rfl
    | spreadPattern span argument => exact absurd ht (h.not_spread span argument)
    | restPattern span argument =>
      exact restOffence?_eq_none.mpr (h.rest_not_default span argument ht)
    | restMember span argument =>
      exact restOffence?_eq_none.mpr (h.restMember_not_default span argument ht)
    | _ => rfl
  · rintro ⟨hplain, hdistinct⟩
    have plain : ∀ {c' : Category} {m : Node c'}, HasTarget ⟨c, n⟩ ⟨c', m⟩ →
        m.offence? strict isBinding none = none := fun hm => hplain _ (mem_reach.mpr hm)
    refine ⟨?_, ?_, ?_, ?_, ?_, fun names hnames => hdistinct names hnames⟩
    · rintro rfl name hname
      obtain ⟨id, hid, rfl⟩ := mem_boundNames.mp hname
      simpa [offence?] using plain hid
    · rintro rfl ⟨_, m⟩ hm
      have hnone := plain hm
      cases m <;> first | rfl | cases hnone
    · intro span argument hm
      cases plain hm
    · intro span argument hm
      exact restOffence?_eq_none.mp (plain hm)
    · intro span argument hm
      exact restOffence?_eq_none.mp (plain hm)

end Node

namespace Pattern

open Node

/-- A check comes through exactly if the pattern keeps the rules, and has then gathered its names.
Otherwise it fails with the first offence from left to right, at the start of the node to blame, and
has gathered the names before it. -/
theorem check_finds_first_offence (strict isBinding : Bool) (names : Option (List String))
    (p : Pattern) :
    ((p.check strict isBinding names).1 = .ok () ↔ p.KeepsRules strict isBinding names) ∧
      match p.check strict isBinding names with
      | (.ok _, after) => after = names.map (p.boundNames.reverse ++ ·)
      | (.error e, after) => ∃ before m rest, p.reach = before ++ m :: rest ∧
          IsClean strict isBinding names before ∧
          m.2.offence? strict isBinding (gathered names before) = some e ∧
          after = gathered names before := by
  rw [keepsRules_iff]
  unfold check
  rw [checkTargets_eq_walk]
  cases hwalk : Check.walk strict isBinding p.reach names with
  | ok _ after =>
    have hclean := Check.isClean_of_walk hwalk
    rw [Check.walk_of_isClean hclean] at hwalk
    obtain ⟨-, rfl⟩ := EStateM.Result.ok.inj hwalk
    exact ⟨by simpa using hclean, by rw [gathered, namesAmong_reach]⟩
  | error e after =>
    have hstops := Check.exists_of_walk_error hwalk
    refine ⟨⟨nofun, fun hclean => ?_⟩, hstops⟩
    rw [Check.walk_of_isClean hclean] at hwalk
    cases hwalk

end Pattern

end EcmaTree
