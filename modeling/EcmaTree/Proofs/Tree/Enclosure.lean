import EcmaTree.Proofs.Tree.Site

/-!
# What encloses a node

A node lies in a function if it lies in the body of the function, and it lies in the same
function as a node above it if no body of a function is between them. What the scope of a node
says is said here of the tree alone: a function that is entered is one whose body lies around the
node, and a label in scope is that of a loop or a labeled statement around it in the same
function.
-/

namespace EcmaTree

/-- Blocks and the bodies of arrow functions: such a part of a function is its body. -/
def Category.isBody : Category → Bool
  | .block | .body => true
  | _ => false

/-- Whether statements lie in a node of this category and in the same function as the node. -/
def Category.holdsStatements : Category → Bool
  | .statement | .block | .body | .handler => true
  | .list c | .option c => c.holdsStatements
  | _ => false

namespace Node

variable {c : Category}

def isFunction : {c : Category} → Node c → Bool
  | _, .function _ _ _ _ _ | _, .functionDeclaration _ _ _ _ _ | _, .arrow _ _ _ => true
  | _, _ => false

def isGenerator : {c : Category} → Node c → Bool
  | _, .function _ _ _ _ generator | _, .functionDeclaration _ _ _ _ generator => generator
  | _, _ => false

/-- The label of a labeled statement. -/
def label? : {c : Category} → Node c → Option String
  | _, .labeledStatement _ label _ => some label.name
  | _, _ => none

/-- The node `b` is the body of the function `f`. -/
def IsBodyOf (f b : (c : Category) × Node c) : Prop :=
  b ∈ f.2.children ∧ f.2.isFunction = true ∧ b.1.isBody = true

/-- The node `b` is the statement that the loop `l` repeats. -/
def IsRepeatedBy (l b : (c : Category) × Node c) : Prop :=
  b ∈ l.2.children ∧ l.2.isLoop = true ∧ b.1 = .statement

/-- The statement `b` has the label `name`, which stands right before it in `x`. -/
def IsLabeledBy (name : String) (x b : (c : Category) × Node c) : Prop :=
  b ∈ x.2.children ∧ x.2.label? = some name

/-- The node `m` is `n` or lies below it in the same function. -/
abbrev Within : ((c : Category) × Node c) → ((c : Category) × Node c) → Prop :=
  Relation.ReflTransGen fun n m => m ∈ n.2.children ∧ ¬IsBodyOf n m

/-- In the tree `root` the node `m` lies within a part that stands in the relation `R` to
the node around it. -/
def IsEnclosed (root : (c : Category) × Node c)
    (R : ((c : Category) × Node c) → ((c : Category) × Node c) → Prop)
    (m : (c : Category) × Node c) : Prop :=
  ∃ x b, Occurs root x ∧ R x b ∧ Within b m

end Node

namespace Site

/-- What lies between a node in the scope `σ` and a part of it. -/
inductive Passage (σ : Scope) {c : Category} (n : Node c) (site : Site) : Prop
  | body (function : n.isFunction = true) (part : site.category.isBody = true)
      (entered : site.scope = σ.enter site.node.turnsStrict n.isGenerator)
      (unlabeled : n.label? = none)
  | loop (outside : n.isFunction = false) (loop : n.isLoop = true)
      (part : site.category = .statement) (pushed : site.scope = σ.push ⟨none, true⟩)
      (unlabeled : n.label? = none)
  | label {name : String} (outside : n.isFunction = false) (category : c = .statement)
      (not_loop : n.isLoop = false) (label : n.label? = some name)
      (pushed : site.scope = σ.push ⟨some name, site.node.isLoop⟩)
  | same (outside : n.isFunction = true → site.category.isBody = false)
      (keeps : site.scope = σ)
      (statements : site.category.holdsStatements = true →
        c.holdsStatements = true ∧ n.isLoop = false)
      (unlabeled : n.label? = none)

theorem passage {σ : Scope} {c : Category} (n : Node c) :
    ∀ site ∈ n.parts σ, Passage σ n site := by
  cases n with
  | function | functionDeclaration | arrow =>
    exact List.forall_mem_cons.mpr ⟨.same (fun _ => rfl) rfl (absurd · Bool.false_ne_true) rfl,
      List.forall_mem_singleton.mpr (.body rfl rfl rfl rfl)⟩
  | labeledStatement => exact List.forall_mem_singleton.mpr (.label rfl rfl rfl rfl rfl)
  | forStatement | forInStatement | forOfStatement | whileStatement =>
    simp only [Node.parts, List.forall_mem_cons, List.not_mem_nil, IsEmpty.forall_iff,
      implies_true, and_true]
    repeat' apply And.intro
    all_goals first
      | exact .loop rfl rfl rfl rfl rfl
      | exact .same (absurd · Bool.false_ne_true) rfl (absurd · Bool.false_ne_true) rfl
  | _ =>
    simp only [Node.parts, Node.children, List.map_cons, List.map_nil,
      List.forall_mem_cons, List.not_mem_nil, IsEmpty.forall_iff, implies_true, and_true]
    repeat' apply And.intro
    all_goals
      refine .same (absurd · Bool.false_ne_true) rfl (fun h => ⟨?_, rfl⟩) rfl
      first
        | exact h
        | cases h

variable {x y : Site}

theorem Below.passage (h : x.Below y) : Passage x.scope x.node y :=
  Site.passage x.node y h

/-- Every part of a node has a site. -/
theorem exists_below {m : (c : Category) × Node c} (h : m ∈ x.node.children) :
    ∃ y, x.Below y ∧ y.bare = m := by
  rw [← Node.map_parts x.scope x.node] at h
  exact List.mem_map.mp h

/-- A part that is not the body of a function lies within the node. -/
theorem Below.within_tail {b : (c : Category) × Node c} (h : x.Below y)
    (hbody : x.node.isFunction = true → y.category.isBody = false)
    (hb : Node.Within b x.bare) : Node.Within b y.bare := by
  refine hb.tail ⟨h.bare, fun hy => ?_⟩
  have hpart : y.category.isBody = true := hy.2.2
  rw [hbody hy.2.1] at hpart
  cases hpart

/-- In a function, the body of the innermost one lies around the node. -/
theorem exists_function (hx : x.scope.inFunction = false ∧ x.scope.inGenerator = false)
    (h : Occurs x y) (hy : y.scope.inFunction = true ∨ y.scope.inGenerator = true) :
    ∃ f b, Node.Occurs x.bare f ∧ Node.IsBodyOf f b ∧ f.2.isGenerator = y.scope.inGenerator ∧
      Node.Within b y.bare := by
  induction h with
  | refl => simp [hx] at hy
  | tail hxy hyz ih =>
    rename_i y z
    have hz := hyz.passage
    -- Unless the step enters a function itself, the function around `y` is the one around `z`.
    have outer : (y.node.isFunction = true → z.category.isBody = false) →
        z.scope.inFunction = y.scope.inFunction → z.scope.inGenerator = y.scope.inGenerator →
        ∃ f b, Node.Occurs x.bare f ∧ Node.IsBodyOf f b ∧
          f.2.isGenerator = z.scope.inGenerator ∧ Node.Within b z.bare := by
      intro hbody hf hg
      obtain ⟨f, b, hxf, hfb, hgen, hb⟩ := ih (hf ▸ hg ▸ hy)
      exact ⟨f, b, hxf, hfb, hgen.trans hg.symm, hyz.within_tail hbody hb⟩
    cases hz with
    | body function part entered =>
      exact ⟨y.bare, z.bare, Node.occurs_of_site hxy, ⟨hyz.bare, function, part⟩,
        by rw [entered]; rfl,
        .refl⟩
    | loop outside loop part pushed =>
      exact outer (by simp [outside]) (by rw [pushed]; rfl) (by rw [pushed]; rfl)
    | label outside category not_loop label pushed =>
      exact outer (by simp [outside]) (by rw [pushed]; rfl) (by rw [pushed]; rfl)
    | same outside keeps => exact outer outside (by rw [keeps]) (by rw [keeps])

/-- What has brought a label into scope. -/
def Brings (l : Label) (x b : (c : Category) × Node c) : Prop :=
  (l = ⟨none, true⟩ ∧ Node.IsRepeatedBy x b) ∨
    ∃ name, l = ⟨some name, b.2.isLoop⟩ ∧ Node.IsLabeledBy name x b

/-- A label in scope comes from a statement around the node in the same function. -/
theorem exists_brings {l : Label} (hx : x.scope.labels = []) (h : Occurs x y)
    (hl : l ∈ y.scope.labels) : Node.IsEnclosed x.bare (Brings l) y.bare := by
  induction h with
  | refl => simp [hx] at hl
  | tail hxy hyz ih =>
    rename_i y z
    have outer : (y.node.isFunction = true → z.category.isBody = false) →
        l ∈ y.scope.labels → Node.IsEnclosed x.bare (Brings l) z.bare := by
      intro hbody hl
      obtain ⟨w, b, hw, hbrings, hb⟩ := ih hl
      exact ⟨w, b, hw, hbrings, hyz.within_tail hbody hb⟩
    cases hyz.passage with
    | body function part entered =>
      rw [entered] at hl
      cases hl
    | loop outside loop part pushed =>
      rw [pushed] at hl
      rcases List.mem_cons.mp hl with rfl | hl
      · exact ⟨y.bare, z.bare, Node.occurs_of_site hxy, .inl ⟨rfl, hyz.bare, loop, part⟩, .refl⟩
      · exact outer (by simp [outside]) hl
    | label outside category not_loop label pushed =>
      rw [pushed] at hl
      rcases List.mem_cons.mp hl with rfl | hl
      · exact ⟨y.bare, z.bare, Node.occurs_of_site hxy, .inr ⟨_, rfl, hyz.bare, label⟩, .refl⟩
      · exact outer (by simp [outside]) hl
    | same outside keeps => exact outer outside (keeps ▸ hl)

/-- A label stays in scope down to the bodies of functions. -/
theorem exists_within {m : (c : Category) × Node c} (h : Node.Within x.bare m) :
    ∃ y, Occurs x y ∧ y.bare = m ∧ ∀ l ∈ x.scope.labels, l ∈ y.scope.labels := by
  induction h with
  | refl => exact ⟨x, .refl, rfl, fun _ => id⟩
  | tail _ hstep ih =>
    obtain ⟨y, hxy, rfl, hlabels⟩ := ih
    obtain ⟨hmem, hbody⟩ := hstep
    obtain ⟨z, hyz, rfl⟩ := exists_below hmem
    refine ⟨z, hxy.tail hyz, rfl, fun l hl => ?_⟩
    cases hyz.passage with
    | body function part entered => exact absurd ⟨hmem, function, part⟩ hbody
    | loop outside loop part pushed =>
      rw [pushed]
      exact List.mem_cons_of_mem _ (hlabels l hl)
    | label outside category not_loop label pushed =>
      rw [pushed]
      exact List.mem_cons_of_mem _ (hlabels l hl)
    | same outside keeps => exact keeps ▸ hlabels l hl

/-- A label is in scope in the statement that it stands before. -/
theorem exists_below_of_isLabeledBy {name : String} {b : (c : Category) × Node c}
    (h : Node.IsLabeledBy name x.bare b) :
    ∃ y, x.Below y ∧ y.bare = b ∧ ⟨some name, b.2.isLoop⟩ ∈ y.scope.labels := by
  obtain ⟨hmem, hname⟩ := h
  obtain ⟨y, hxy, rfl⟩ := exists_below hmem
  have hlabel : x.node.label? = some name := hname
  refine ⟨y, hxy, rfl, ?_⟩
  cases hxy.passage with
  | label outside category not_loop label pushed =>
    obtain rfl := Option.some.inj (label.symm.trans hlabel)
    rw [pushed]
    exact List.mem_cons_self
  | body _ _ _ unlabeled | loop _ _ _ _ unlabeled | same _ _ _ unlabeled =>
    simp [unlabeled] at hlabel

/-- Where a statement other than a loop sees the label of a loop, it lies in the body of a loop. -/
theorem mem_labels_of_isLoop {l : Label} (hx : x.scope.labels = []) (h : Occurs x y)
    (hy : y.category.holdsStatements = true) (hn : y.node.isLoop = false)
    (hl : l ∈ y.scope.labels) (hloop : l.isLoop = true) : ⟨none, true⟩ ∈ y.scope.labels := by
  induction h generalizing l with
  | refl => simp [hx] at hl
  | tail hxy hyz ih =>
    rename_i y z
    cases hyz.passage with
    | body function part entered =>
      rw [entered] at hl
      cases hl
    | loop outside loop part pushed =>
      rw [pushed]
      exact List.mem_cons_self
    | label outside category not_loop label pushed =>
      rw [pushed] at hl ⊢
      rcases List.mem_cons.mp hl with rfl | hl
      · simp [hn] at hloop
      · exact List.mem_cons_of_mem _ (ih (by rw [category]; rfl) not_loop hl hloop)
    | same outside keeps statements unlabeled =>
      rw [keeps] at hl ⊢
      obtain ⟨hy', hn'⟩ := statements hy
      exact ih hy' hn' hl hloop

end Site

end EcmaTree
