import EcmaTree.Grammar.State
import EcmaTree.Proofs.Tree.Occurrence
import Mathlib.Data.List.ReduceOption
import Mathlib.Logic.Relation

/-!
# Where the nodes of a tree stand

The scope of a node follows from the nodes around it. The body of a function has a scope of
its own, without labels, which is strict if the code around it is or if a directive at its
beginning says so. The body of a loop and of a labeled statement has one more label. A site is
a node together with its scope.
-/

namespace EcmaTree

namespace Scope

/-- The scope of the body of a function that stands in the scope `σ`. -/
def enter (σ : Scope) (strict generator : Bool) : Scope :=
  ⟨σ.strict || strict, true, generator, []⟩

/-- The scope with one more label. -/
def push (σ : Scope) (label : Label) : Scope :=
  { σ with labels := label :: σ.labels }

end Scope

namespace Node

variable {c : Category}

/-- A loop. A label on it is one that `continue` may ask for. -/
def isLoop : {c : Category} → Node c → Bool
  | _, .forStatement _ _ _ _ _ | _, .forInStatement _ _ _ _ | _, .forOfStatement _ _ _ _
  | _, .whileStatement _ _ _ => true
  | _, _ => false

/-- The directive for strict mode. -/
def isUseStrict : {c : Category} → Node c → Bool
  | _, .expressionStatement _ _ directive => directive == some "use strict"
  | _, _ => false

/-- Whether the body of a function turns strict mode on. -/
def turnsStrict : {c : Category} → Node c → Bool
  | _, .block _ body => body.toList.any isUseStrict
  | _, .blockBody b => turnsStrict b
  | _, _ => false

end Node

/-- A node and the scope in which it stands. -/
structure Site where
  scope : Scope
  {category : Category}
  node : Node category

namespace Node

variable {c : Category} {σ : Scope}

/-- The sites right below a node that stands in the scope `σ`. -/
def parts (σ : Scope) : {c : Category} → Node c → List Site
  | _, .function _ _ params body generator | _, .functionDeclaration _ _ params body generator =>
    [⟨σ, params⟩, ⟨σ.enter body.turnsStrict generator, body⟩]
  | _, .arrow _ params body => [⟨σ, params⟩, ⟨σ.enter body.turnsStrict false, body⟩]
  | _, .forStatement _ init test step body =>
    [⟨σ, init⟩, ⟨σ, test⟩, ⟨σ, step⟩, ⟨σ.push ⟨none, true⟩, body⟩]
  | _, .forInStatement _ left right body | _, .forOfStatement _ left right body =>
    [⟨σ, left⟩, ⟨σ, right⟩, ⟨σ.push ⟨none, true⟩, body⟩]
  | _, .whileStatement _ test body => [⟨σ, test⟩, ⟨σ.push ⟨none, true⟩, body⟩]
  | _, .labeledStatement _ label body => [⟨σ.push ⟨some label.name, body.isLoop⟩, body⟩]
  | _, n => n.children.map fun m => ⟨σ, m.2⟩

/-- Each child of a node has one site below the node, and no other node has one. -/
theorem map_parts (σ : Scope) (n : Node c) :
    (n.parts σ).map (fun site => ⟨site.category, site.node⟩) = n.children := by
  cases n <;> rfl

end Node

namespace Site

/-- The site `y` lies right below the site `x`. -/
def Below (x y : Site) : Prop :=
  y ∈ x.node.parts x.scope

/-- The site `y` is the site `x` or lies somewhere below it. -/
abbrev Occurs : Site → Site → Prop :=
  Relation.ReflTransGen Below

/-- The node of a site without its scope. -/
def bare (site : Site) : (c : Category) × Node c :=
  ⟨site.category, site.node⟩

variable {x y : Site}

theorem Below.bare (h : x.Below y) : y.bare ∈ x.node.children := by
  rw [← Node.map_parts x.scope x.node]
  exact List.mem_map_of_mem h

end Site

namespace Node

/-- A node occurs in a tree if it is the tree itself or occurs in a child of it. -/
abbrev Occurs : ((c : Category) × Node c) → ((c : Category) × Node c) → Prop :=
  Relation.ReflTransGen fun n m => m ∈ n.2.children

variable {c c' : Category} {σ : Scope}

/-- Every node that occurs in a tree has a site there. -/
theorem exists_site_of_occurs {n : Node c} {m : (c : Category) × Node c} (σ : Scope)
    (h : Occurs ⟨c, n⟩ m) : ∃ τ, Site.Occurs ⟨σ, n⟩ ⟨τ, m.2⟩ := by
  induction h with
  | refl => exact ⟨σ, .refl⟩
  | tail _ hmem ih =>
    rename_i parent child _
    obtain ⟨τ, hτ⟩ := ih
    rw [← map_parts τ parent.2] at hmem
    obtain ⟨site, hsite, rfl⟩ := List.mem_map.mp hmem
    exact ⟨site.scope, hτ.tail hsite⟩

/-- If a search through a tree finds a node, the node occurs there. -/
theorem exists_occurs_of_any {p : {c : Category} → Node c → Bool} {n : Node c}
    (h : n.any p = true) : ∃ m, Occurs ⟨c, n⟩ m ∧ p m.2 = true := by
  induction n using children_induction with
  | h n ih =>
    rcases any_eq_true.mp h with hp | ⟨child, hchild, hany⟩
    · exact ⟨_, .refl, hp⟩
    · obtain ⟨m, hm, hp⟩ := ih child hchild hany
      exact ⟨m, .head hchild hm, hp⟩

/-- The node of every site in a tree occurs there. -/
theorem occurs_of_site {x y : Site} (h : Site.Occurs x y) : Occurs x.bare y.bare :=
  Relation.ReflTransGen.lift (p := fun n m => m ∈ n.2.children) Site.bare
    (fun _ _ hbelow => hbelow.bare) _ _ h

/-- The property `P` holds at the node and everywhere below it. -/
def Everywhere (P : Scope → {c : Category} → Node c → Prop) (σ : Scope) (n : Node c) : Prop :=
  ∀ site, Site.Occurs ⟨σ, n⟩ site → P site.scope site.node

variable {P : Scope → {c : Category} → Node c → Prop} {n : Node c}

theorem everywhere_iff :
    n.Everywhere P σ ↔ P σ n ∧ ∀ site ∈ n.parts σ, site.node.Everywhere P site.scope := by
  constructor
  · intro h
    exact ⟨h _ .refl, fun site hsite below hbelow => h below (.head hsite hbelow)⟩
  · rintro ⟨hn, hparts⟩ site hsite
    rcases Relation.ReflTransGen.cases_head hsite with rfl | ⟨below, hbelow, hrest⟩
    · exact hn
    · exact hparts below hbelow site hrest

theorem Everywhere.here (h : n.Everywhere P σ) : P σ n :=
  (everywhere_iff.mp h).1

theorem Everywhere.part (h : n.Everywhere P σ) {τ : Scope} {m : Node c'}
    (hm : ⟨τ, m⟩ ∈ n.parts σ) : m.Everywhere P τ :=
  (everywhere_iff.mp h).2 ⟨τ, m⟩ hm

theorem everywhere_of_parts (hn : P σ n)
    (hparts : ∀ site ∈ n.parts σ, site.node.Everywhere P site.scope) : n.Everywhere P σ :=
  everywhere_iff.mpr ⟨hn, hparts⟩

/-- A node without children. -/
theorem everywhere_leaf (hn : P σ n) (hparts : n.parts σ = []) : n.Everywhere P σ :=
  everywhere_of_parts hn (by simp [hparts])

/-- For a property of nodes alone the scopes do not matter. -/
theorem everywhere_iff_occurs {Q : {c : Category} → Node c → Prop} :
    n.Everywhere (fun _ _ m => Q m) σ ↔ ∀ m, Occurs ⟨c, n⟩ m → Q m.2 := by
  constructor
  · intro h m hm
    obtain ⟨τ, hsite⟩ := exists_site_of_occurs σ hm
    exact h _ hsite
  · intro h site hsite
    exact h _ (occurs_of_site hsite)

section Lists

variable (hlist : ∀ {c : Category} (xs : Node (.list c)), P σ xs)
  (hoption : ∀ {c : Category} (x : Node (.option c)), P σ x)

include hlist in
theorem everywhere_ofList {xs : List (Node c)} :
    (ofList xs).Everywhere P σ ↔ ∀ x ∈ xs, x.Everywhere P σ := by
  induction xs with
  | nil => exact ⟨fun _ => nofun, fun _ => everywhere_leaf (hlist _) rfl⟩
  | cons x xs ih =>
    rw [everywhere_iff, List.forall_mem_cons, ← ih]
    simp [ofList, parts, children, hlist]

include hoption in
theorem everywhere_ofOption {x : Option (Node c)} :
    (ofOption x).Everywhere P σ ↔ ∀ y ∈ x, y.Everywhere P σ := by
  cases x with
  | none => exact ⟨fun _ => nofun, fun _ => everywhere_leaf (hoption _) rfl⟩
  | some y =>
    rw [everywhere_iff]
    simp [ofOption, parts, children, hoption]

include hlist hoption in
theorem everywhere_ofHoleyList {xs : List (Option (Node c))} :
    (ofHoleyList xs).Everywhere P σ ↔ ∀ x, some x ∈ xs → x.Everywhere P σ := by
  unfold ofHoleyList
  rw [everywhere_ofList hlist, List.forall_mem_map]
  simp only [everywhere_ofOption hoption, Option.mem_def]
  exact ⟨fun h x hx => h (some x) hx x rfl, fun h x hx y hy => h y (hy ▸ hx)⟩

end Lists

end Node

end EcmaTree
