import EcmaTree.Proofs.Source.Slice
import EcmaTree.Proofs.Target.Converts
import EcmaTree.Proofs.Tree.Alike

/-!
# Spans that form a tree over the text

Below a node lie nodes and the names and chunks that are no nodes of their own, in the order of
the text. A node is nested if their spans lie within its own span, one after the other, and if
what is written there is the text of its span. Lists and optional children have no span: what is
in them lies right below the node around them. The value of a shorthand property begins with
the name that is its key as well, so these two are not one after the other.
-/

namespace EcmaTree

/-- A node below a node, or a text that is written there. -/
inductive Fragment where
  | written (span : Span) (text : String)
  | node {c : Category} (n : Node c)

/-- The first span starts before the second one and ends before it, or right where it starts. -/
def Span.Precedes (x y : Span) : Prop :=
  x.start.offset < y.start.offset ∧ x.stop.offset ≤ y.start.offset

/-- One item of the first list, one of the second list, and so on. -/
def weave {α : Type} : List α → List α → List α
  | x :: xs, y :: ys => x :: y :: weave xs ys
  | xs, [] => xs
  | [], ys => ys

namespace Node

variable {c c' : Category} {text : List Char}

/-- The span of a node, or of each node in it if it is a list. -/
def outline : {c : Category} → Node c → List Span
  | _, .nil | _, .absent => []
  | _, .cons head tail => outline head ++ outline tail
  | _, .present value => outline value
  | _, n => [n.span]

/-- What lies right below a node, in the order of the text. -/
def fragments : {c : Category} → Node c → List Fragment
  | _, .identifier id | _, .namePattern id | _, .nameKey id => [.written id.span id.name]
  | _, .literal lit | _, .literalKey lit => [.written lit.span lit.raw]
  | _, .template _ quasis expressions =>
    weave (quasis.map fun chunk => .written chunk.span chunk.raw)
      (expressions.toList.map fun e => .node e)
  | _, .function _ id params body _ | _, .functionDeclaration _ id params body _ =>
    id.toList.map (fun id => .written id.span id.name) ++ [.node params, .node body]
  | _, .breakStatement _ label | _, .continueStatement _ label =>
    label.toList.map fun label => .written label.span label.name
  | _, .labeledStatement _ label body => [.written label.span label.name, .node body]
  | _, .nil | _, .cons _ _ | _, .absent | _, .present _ => []
  | _, n => n.children.map fun m => .node m.2

/-- The key of a shorthand property is a part of its value. -/
def isShorthand : {c : Category} → Node c → Bool
  | _, .property _ _ _ _ _ shorthand | _, .propertyPattern _ _ _ shorthand => shorthand
  | _, _ => false

end Node

namespace Fragment

def spans : Fragment → List Span
  | written span _ => [span]
  | node n => n.outline

end Fragment

/-- The spans of a list of fragments. -/
def spansOf (fragments : List Fragment) : List Span :=
  fragments.flatMap Fragment.spans

theorem spansOf_append (xs ys : List Fragment) : spansOf (xs ++ ys) = spansOf xs ++ spansOf ys :=
  List.flatMap_append

namespace Node

variable {c c' : Category} {text : List Char} {σ : Scope}

/-- What lies right below the node lies within its span, in order, and is written there. -/
structure IsNested (text : List Char) (n : Node c) : Prop where
  start_le_stop : n.span.start.offset ≤ n.span.stop.offset
  inside : ∀ x ∈ spansOf n.fragments,
    n.span.start.offset ≤ x.start.offset ∧ x.stop.offset ≤ n.span.stop.offset
  ordered : n.isShorthand = false → (spansOf n.fragments).Pairwise Span.Precedes
  spelled : ∀ {span content}, .written span content ∈ n.fragments →
    slice? text span.start.offset span.stop.offset = some content.toList

/-- The node and all nodes below it are nested. -/
def AllNested (text : List Char) (n : Node c) : Prop :=
  ∀ m, Occurs ⟨c, n⟩ m → m.2.IsNested text

theorem isNested_list (xs : Node (.list c)) : xs.IsNested text := by
  cases xs <;> exact ⟨Nat.le_refl _, nofun, fun _ => .nil, nofun⟩

theorem isNested_option (x : Node (.option c)) : x.IsNested text := by
  cases x <;> exact ⟨Nat.le_refl _, nofun, fun _ => .nil, nofun⟩

theorem allNested_iff_everywhere {n : Node c} :
    n.AllNested text ↔ n.Everywhere (fun _ _ m => m.IsNested text) default :=
  (everywhere_iff_occurs (Q := fun m => m.IsNested text)).symm

theorem AllNested.here {n : Node c} (h : n.AllNested text) : n.IsNested text :=
  h _ .refl

theorem AllNested.child {n : Node c} (h : n.AllNested text) {m : Node c'}
    (hm : ⟨c', m⟩ ∈ n.children) : m.AllNested text :=
  fun below hbelow => h below (.head hm hbelow)

theorem allNested_of_children {n : Node c} (hn : n.IsNested text)
    (h : ∀ m ∈ n.children, m.2.AllNested text) : n.AllNested text := by
  intro m hm
  rcases Relation.ReflTransGen.cases_head hm with rfl | ⟨child, hchild, hrest⟩
  · exact hn
  · exact h child hchild m hrest

theorem allNested_ofList {xs : List (Node c)} :
    (ofList xs).AllNested text ↔ ∀ x ∈ xs, x.AllNested text := by
  simp only [allNested_iff_everywhere]
  exact everywhere_ofList isNested_list

theorem allNested_ofHoleyList {xs : List (Option (Node c))} :
    (ofHoleyList xs).AllNested text ↔ ∀ x, some x ∈ xs → x.AllNested text := by
  simp only [allNested_iff_everywhere]
  exact everywhere_ofHoleyList isNested_list isNested_option

theorem outline_ofList (xs : List (Node c)) : (ofList xs).outline = xs.flatMap outline := by
  induction xs with
  | nil => rfl
  | cons x xs ih =>
    rw [List.flatMap_cons, ← ih]
    rfl

/-- Holes have no spans. -/
theorem outline_ofHoleyList (xs : List (Option (Node c))) :
    (ofHoleyList xs).outline = xs.reduceOption.flatMap outline := by
  unfold ofHoleyList
  rw [outline_ofList]
  induction xs with
  | nil => rfl
  | cons x xs ih =>
    rw [List.map_cons, List.flatMap_cons, ih]
    cases x <;> rfl

end Node

/-- A written fragment is the text of its span, and a node is nested with all nodes below it. -/
def Fragment.IsSound (text : List Char) : Fragment → Prop
  | .written span content =>
    slice? text span.start.offset span.stop.offset = some content.toList
  | .node n => n.AllNested text

/-- The node has a span of its own, and no part of it is read twice. -/
def Node.IsPlain {c : Category} (n : Node c) : Prop :=
  c.IsPlaced ∧ n.isShorthand = false

theorem mem_weave {α : Type} {x : α} {xs ys : List α} : x ∈ weave xs ys ↔ x ∈ xs ∨ x ∈ ys := by
  induction xs, ys using weave.induct with
  | case1 a xs b ys ih =>
    simp only [weave, List.mem_cons, ih]
    tauto
  | case2 xs => simp [weave]
  | case3 ys hys => simp [weave]

namespace Node

variable {c c' : Category} {text : List Char}

theorem outline_of_isPlaced (h : c.IsPlaced) (n : Node c) : n.outline = [n.span] := by
  cases n <;> first | rfl | cases h

theorem spansOf_node (h : c.IsPlaced) (n : Node c) : spansOf [.node n] = [n.span] :=
  (List.flatMap_singleton _ _).trans (outline_of_isPlaced h n)

theorem spansOf_ne_nil {n : Node c} {fs : List Fragment} (hc : c.IsPlaced)
    (hmem : .node n ∈ fs) : spansOf fs ≠ [] := by
  have hspan : n.span ∈ spansOf fs :=
    List.mem_flatMap.mpr ⟨.node n, hmem, by simp [Fragment.spans, outline_of_isPlaced hc]⟩
  exact List.ne_nil_of_mem hspan

theorem spansOf_cons_ne_nil {x : Node c} {xs : Node (.list c)} {fs : List Fragment}
    (hc : c.IsPlaced) : spansOf (.node (.cons x xs) :: fs) ≠ [] := by
  simp [spansOf, Fragment.spans, outline, outline_of_isPlaced hc]

/-- A child is a fragment, or it is the list of the expressions in a template. -/
theorem fragment_of_child {n : Node c} (hc : c.IsPlaced) {m : (c : Category) × Node c}
    (hm : m ∈ n.children) : .node m.2 ∈ n.fragments ∨
      ∃ es : List Expression, m = ⟨_, ofList es⟩ ∧ ∀ e ∈ es, .node e ∈ n.fragments := by
  have listed : n.fragments = n.children.map (fun m => .node m.2) → .node m.2 ∈ n.fragments := by
    intro hn
    rw [hn]
    exact List.mem_map_of_mem (f := fun m : (c : Category) × Node c => Fragment.node m.2) hm
  cases n with
  | template span quasis expressions =>
    obtain rfl := List.mem_singleton.mp hm
    refine .inr ⟨expressions.toList, by rw [ofList_toList], fun e he => ?_⟩
    exact mem_weave.mpr (.inr (List.mem_map_of_mem he))
  | function | functionDeclaration =>
    exact .inl (List.mem_append_right _ (List.mem_map_of_mem (l := [_, _])
      (f := fun m : (c : Category) × Node c => Fragment.node m.2) hm))
  | labeledStatement =>
    obtain rfl := List.mem_singleton.mp hm
    exact .inl (List.mem_cons_of_mem _ List.mem_cons_self)
  | identifier | literal | namePattern | nameKey | literalKey | breakStatement
  | continueStatement => cases hm
  | nil | cons | absent | present => cases hc
  | _ => exact .inl (listed rfl)

/-- The children of a sound node are sound, because each of them is a fragment or lists some. -/
theorem allNested_of_fragments {n : Node c} (hc : c.IsPlaced)
    (h : ∀ f ∈ n.fragments, f.IsSound text) : ∀ m ∈ n.children, m.2.AllNested text := by
  intro m hm
  rcases fragment_of_child hc hm with hf | ⟨es, rfl, hes⟩
  · exact h _ hf
  · exact allNested_ofList.mpr fun e he => h _ (hes e he)

/-- The children of a node have their spans among those of its fragments. -/
theorem mem_spansOf_of_child {n : Node c} (hc : c.IsPlaced) {m : (c : Category) × Node c}
    (hm : m ∈ n.children) {x : Span} (hx : x ∈ m.2.outline) : x ∈ spansOf n.fragments := by
  rcases fragment_of_child hc hm with hf | ⟨es, rfl, hes⟩
  · exact List.mem_flatMap.mpr ⟨_, hf, hx⟩
  · rw [outline_ofList] at hx
    obtain ⟨e, he, hx⟩ := List.mem_flatMap.mp hx
    exact List.mem_flatMap.mpr ⟨_, hes e he, hx⟩

/-- A list has the spans of what is in it. -/
theorem mem_outline_of_child {n : Node c} (hc : ¬c.IsPlaced) {m : (c : Category) × Node c}
    (hm : m ∈ n.children) {x : Span} (hx : x ∈ m.2.outline) : x ∈ n.outline := by
  cases n with
  | nil | absent => cases hm
  | cons head tail =>
    rcases List.mem_pair.mp hm with rfl | rfl
    · exact List.mem_append_left _ hx
    · exact List.mem_append_right _ hx
  | present value =>
    obtain rfl := List.mem_singleton.mp hm
    exact hx
  | _ => exact absurd trivial hc

/-- At whatever depth, what is below a node lies within its span, and what is in a list lies
within the span of one of its items. -/
theorem exists_within_of_occurs {root m : (c : Category) × Node c} (hm : Occurs root m)
    (hplace : m.1.IsPlaced) (h : root.2.AllNested text) : ∃ x ∈ root.2.outline,
      x.start.offset ≤ m.2.span.start.offset ∧ m.2.span.stop.offset ≤ x.stop.offset := by
  induction hm using Relation.ReflTransGen.head_induction_on with
  | refl =>
    refine ⟨m.2.span, ?_, Nat.le_refl _, Nat.le_refl _⟩
    rw [outline_of_isPlaced hplace]
    exact List.mem_cons_self
  | @head root child hchild _ ih =>
    obtain ⟨x, hx, hstart, hstop⟩ := ih (h.child hchild)
    by_cases hc : root.1.IsPlaced
    · obtain ⟨hstart', hstop'⟩ := h.here.inside x (mem_spansOf_of_child hc hchild hx)
      refine ⟨root.2.span, ?_, Nat.le_trans hstart' hstart, Nat.le_trans hstop hstop'⟩
      rw [outline_of_isPlaced hc]
      exact List.mem_cons_self
    · exact ⟨x, mem_outline_of_child hc hchild hx, hstart, hstop⟩

/-- A node that occurs below another one lies within its span. -/
theorem AllNested.within {n : Node c} {m : Node c'} (h : n.AllNested text)
    (hm : Occurs ⟨c, n⟩ ⟨c', m⟩) (hc : c.IsPlaced) (hc' : c'.IsPlaced) :
    n.span.start.offset ≤ m.span.start.offset ∧ m.span.stop.offset ≤ n.span.stop.offset := by
  obtain ⟨x, hx, hwithin⟩ := exists_within_of_occurs hm hc' h
  rw [outline_of_isPlaced hc] at hx
  obtain rfl := List.mem_singleton.mp hx
  exact hwithin

/-- A node with the span and the fragments of a nested node, apart from what they are made of. -/
theorem IsNested.congr {n : Node c} {p : Node c'} (h : n.IsNested text) (hspan : p.span = n.span)
    (hshorthand : p.isShorthand = n.isShorthand)
    (hspans : spansOf p.fragments = spansOf n.fragments)
    (hwritten : ∀ {span content}, .written span content ∈ p.fragments →
      .written span content ∈ n.fragments) : p.IsNested text := by
  obtain ⟨hle, hinside, hordered, hspelled⟩ := h
  refine ⟨?_, ?_, ?_, fun hf => hspelled (hwritten hf)⟩
  · rwa [hspan]
  · rwa [hspan, hspans]
  · rwa [hshorthand, hspans]

/-- Another last child with the same outline keeps a node nested. -/
theorem IsNested.replaceLast {n : Node c} {p : Node c'} {k k' : Category} {a : Node k} {b : Node k'}
    (fs : List Fragment) (h : n.IsNested text) (hspan : p.span = n.span)
    (hshorthand : p.isShorthand = n.isShorthand) (hn : n.fragments = fs ++ [.node a])
    (hp : p.fragments = fs ++ [.node b]) (hb : b.outline = a.outline) : p.IsNested text := by
  refine h.congr hspan hshorthand ?_ fun {span content} hmem => ?_
  · rw [hn, hp, spansOf_append, spansOf_append]
    exact congrArg (fun outline => spansOf fs ++ (outline ++ [])) hb
  · rw [hp] at hmem
    rw [hn]
    simpa using hmem

end Node

namespace Converts

variable {c c' : Category} {isBinding : Bool} {text : List Char} {n : Node c} {p : Node c'}

/-- The conversion leaves all spans where they are. -/
theorem outline_eq (h : Converts isBinding n p) : p.outline = n.outline := by
  induction h with
  | item value_ok ih => exact ih.trans (Node.outline_of_isPlaced (c := .expression) trivial _)
  | cons head tail last ihh iht => exact congrArg₂ (· ++ ·) ihh iht
  | present value ih => exact ih
  | _ => rfl

theorem isNested (h : Converts isBinding n p) (hn : n.AllNested text) : p.IsNested text := by
  have here := hn.here
  induction h with
  | name | default | member => exact here.congr rfl rfl rfl id
  | rest | spreadMember => exact here.congr rfl rfl rfl id
  | object inner | array inner | spread inner =>
    exact here.replaceLast [] rfl rfl rfl rfl inner.outline_eq
  | property inner => exact here.replaceLast [.node _] rfl rfl rfl rfl inner.outline_eq
  | item value_ok ih => exact ih (hn.child List.mem_cons_self) (hn.child List.mem_cons_self).here
  | nil | cons => exact Node.isNested_list _
  | hole | present => exact Node.isNested_option _

theorem allNested (h : Converts isBinding n p) (hl : p.isSpreadless = true)
    (hn : n.AllNested text) : p.AllNested text := by
  rw [Node.allNested_iff_everywhere] at hn ⊢
  refine h.everywhere (fun hc _ hn => ?_) hl hn
  exact hc.isNested (Node.allNested_iff_everywhere.mpr hn)

end Converts

end EcmaTree
