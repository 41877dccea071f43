import EcmaTree.Tree.Node

/-!
# Nodes that occur in a tree

A node occurs in a tree if it is the tree itself or occurs in a child of it. Whether some
node with a property occurs is computed by one recursion over all kinds of nodes. What
passes from the children of a node to the node holds of all nodes.
-/

namespace EcmaTree.Node

/-- The nodes right below a node, in the order of its parts. -/
def children : {c : Category} → Node c → List ((c : Category) × Node c)
  | _, .array _ elements => [⟨_, elements⟩]
  | _, .object _ members => [⟨_, members⟩]
  | _, .function _ _ params body _ | _, .functionDeclaration _ _ params body _ =>
    [⟨_, params⟩, ⟨_, body⟩]
  | _, .arrow _ params body => [⟨_, params⟩, ⟨_, body⟩]
  | _, .template _ _ expressions | _, .sequence _ expressions => [⟨_, expressions⟩]
  | _, .unary _ _ argument | _, .update _ _ _ argument => [⟨_, argument⟩]
  | _, .binary _ _ left right | _, .logical _ _ left right => [⟨_, left⟩, ⟨_, right⟩]
  | _, .assignment _ _ target value => [⟨_, target⟩, ⟨_, value⟩]
  | _, .conditional _ test consequent alternate => [⟨_, test⟩, ⟨_, consequent⟩, ⟨_, alternate⟩]
  | _, .call _ callee arguments | _, .new _ callee arguments => [⟨_, callee⟩, ⟨_, arguments⟩]
  | _, .member _ obj prop _ | _, .memberPattern _ obj prop _ => [⟨_, obj⟩, ⟨_, prop⟩]
  | _, .yield _ argument _ | _, .returnStatement _ argument => [⟨_, argument⟩]
  | _, .item value | _, .computedKey value | _, .conciseBody value | _, .initExpression value
  | _, .expressionStatement _ value _ => [⟨_, value⟩]
  | _, .spread _ argument | _, .spreadMember _ argument | _, .spreadPattern _ argument
  | _, .throwStatement _ argument => [⟨_, argument⟩]
  | _, .rest _ argument | _, .restPattern _ argument | _, .restMember _ argument =>
    [⟨_, argument⟩]
  | _, .property _ key value _ _ _ => [⟨_, key⟩, ⟨_, value⟩]
  | _, .objectPattern _ members => [⟨_, members⟩]
  | _, .arrayPattern _ elements => [⟨_, elements⟩]
  | _, .defaultPattern _ target value => [⟨_, target⟩, ⟨_, value⟩]
  | _, .propertyPattern _ key value _ => [⟨_, key⟩, ⟨_, value⟩]
  | _, .block _ body => [⟨_, body⟩]
  | _, .blockBody b | _, .blockStatement b => [⟨_, b⟩]
  | _, .declarationStatement decl | _, .initDeclaration decl | _, .targetDeclaration decl =>
    [⟨_, decl⟩]
  | _, .ifStatement _ test consequent alternate => [⟨_, test⟩, ⟨_, consequent⟩, ⟨_, alternate⟩]
  | _, .forStatement _ init test step body => [⟨_, init⟩, ⟨_, test⟩, ⟨_, step⟩, ⟨_, body⟩]
  | _, .forInStatement _ left right body | _, .forOfStatement _ left right body =>
    [⟨_, left⟩, ⟨_, right⟩, ⟨_, body⟩]
  | _, .whileStatement _ test body => [⟨_, test⟩, ⟨_, body⟩]
  | _, .labeledStatement _ _ body => [⟨_, body⟩]
  | _, .tryStatement _ b h finalizer => [⟨_, b⟩, ⟨_, h⟩, ⟨_, finalizer⟩]
  | _, .declaration _ _ declarators => [⟨_, declarators⟩]
  | _, .declarator _ target init => [⟨_, target⟩, ⟨_, init⟩]
  | _, .targetPattern target => [⟨_, target⟩]
  | _, .handler _ param body => [⟨_, param⟩, ⟨_, body⟩]
  | _, .cons head tail => [⟨_, head⟩, ⟨_, tail⟩]
  | _, .present value => [⟨_, value⟩]
  | _, .identifier _ | _, .literal _ | _, .this _ | _, .nameKey _ | _, .literalKey _
  | _, .namePattern _ | _, .emptyStatement _ | _, .breakStatement _ _
  | _, .continueStatement _ _ | _, .nil | _, .absent => []

/-- Induction from the children of a node to the node. -/
theorem children_induction {P : {c : Category} → Node c → Prop}
    (h : ∀ {c : Category} (n : Node c), (∀ m ∈ n.children, P m.2) → P n) {c : Category}
    (n : Node c) : P n := by
  induction n <;> refine h _ ?_ <;> simp only [children, List.forall_mem_cons] <;> simp [*]

/-- Whether a node with the property `p` occurs in a tree. -/
def any (p : {c : Category} → Node c → Bool) : {c : Category} → Node c → Bool
  | _, .identifier id => p (.identifier id)
  | _, .literal lit => p (.literal lit)
  | _, .this span => p (.this span)
  | _, .array span elements => p (.array span elements) || any p elements
  | _, .object span members => p (.object span members) || any p members
  | _, .function span id params body generator =>
    p (.function span id params body generator) || any p params || any p body
  | _, .arrow span params body => p (.arrow span params body) || any p params || any p body
  | _, .template span quasis expressions =>
    p (.template span quasis expressions) || any p expressions
  | _, .unary span operator argument => p (.unary span operator argument) || any p argument
  | _, .update span operator isPrefix argument =>
    p (.update span operator isPrefix argument) || any p argument
  | _, .binary span operator left right =>
    p (.binary span operator left right) || any p left || any p right
  | _, .logical span operator left right =>
    p (.logical span operator left right) || any p left || any p right
  | _, .assignment span operator target value =>
    p (.assignment span operator target value) || any p target || any p value
  | _, .conditional span test consequent alternate =>
    p (.conditional span test consequent alternate) || any p test || any p consequent ||
      any p alternate
  | _, .call span callee arguments =>
    p (.call span callee arguments) || any p callee || any p arguments
  | _, .new span callee arguments =>
    p (.new span callee arguments) || any p callee || any p arguments
  | _, .member span obj prop computed =>
    p (.member span obj prop computed) || any p obj || any p prop
  | _, .sequence span expressions => p (.sequence span expressions) || any p expressions
  | _, .yield span argument delegate => p (.yield span argument delegate) || any p argument
  | _, .item value => p (.item value) || any p value
  | _, .spread span argument => p (.spread span argument) || any p argument
  | _, .rest span argument => p (.rest span argument) || any p argument
  | _, .property span key value kind method shorthand =>
    p (.property span key value kind method shorthand) || any p key || any p value
  | _, .spreadMember span argument => p (.spreadMember span argument) || any p argument
  | _, .nameKey id => p (.nameKey id)
  | _, .literalKey lit => p (.literalKey lit)
  | _, .computedKey value => p (.computedKey value) || any p value
  | _, .namePattern id => p (.namePattern id)
  | _, .objectPattern span members => p (.objectPattern span members) || any p members
  | _, .arrayPattern span elements => p (.arrayPattern span elements) || any p elements
  | _, .defaultPattern span target value =>
    p (.defaultPattern span target value) || any p target || any p value
  | _, .restPattern span argument => p (.restPattern span argument) || any p argument
  | _, .memberPattern span obj prop computed =>
    p (.memberPattern span obj prop computed) || any p obj || any p prop
  | _, .propertyPattern span key value shorthand =>
    p (.propertyPattern span key value shorthand) || any p key || any p value
  | _, .restMember span argument => p (.restMember span argument) || any p argument
  | _, .spreadPattern span argument => p (.spreadPattern span argument) || any p argument
  | _, .block span body => p (.block span body) || any p body
  | _, .blockBody b => p (.blockBody b) || any p b
  | _, .conciseBody value => p (.conciseBody value) || any p value
  | _, .expressionStatement span value directive =>
    p (.expressionStatement span value directive) || any p value
  | _, .blockStatement b => p (.blockStatement b) || any p b
  | _, .emptyStatement span => p (.emptyStatement span)
  | _, .declarationStatement decl =>
    p (.declarationStatement decl) || any p decl
  | _, .functionDeclaration span id params body generator =>
    p (.functionDeclaration span id params body generator) || any p params || any p body
  | _, .returnStatement span argument => p (.returnStatement span argument) || any p argument
  | _, .ifStatement span test consequent alternate =>
    p (.ifStatement span test consequent alternate) || any p test || any p consequent ||
      any p alternate
  | _, .forStatement span init test step body =>
    p (.forStatement span init test step body) || any p init || any p test || any p step ||
      any p body
  | _, .forInStatement span left right body =>
    p (.forInStatement span left right body) || any p left || any p right || any p body
  | _, .forOfStatement span left right body =>
    p (.forOfStatement span left right body) || any p left || any p right || any p body
  | _, .whileStatement span test body =>
    p (.whileStatement span test body) || any p test || any p body
  | _, .breakStatement span label => p (.breakStatement span label)
  | _, .continueStatement span label => p (.continueStatement span label)
  | _, .labeledStatement span label body => p (.labeledStatement span label body) || any p body
  | _, .throwStatement span argument => p (.throwStatement span argument) || any p argument
  | _, .tryStatement span b h finalizer =>
    p (.tryStatement span b h finalizer) || any p b || any p h ||
      any p finalizer
  | _, .declaration span kind declarators =>
    p (.declaration span kind declarators) || any p declarators
  | _, .declarator span target init =>
    p (.declarator span target init) || any p target || any p init
  | _, .initDeclaration decl => p (.initDeclaration decl) || any p decl
  | _, .initExpression value => p (.initExpression value) || any p value
  | _, .targetDeclaration decl => p (.targetDeclaration decl) || any p decl
  | _, .targetPattern target => p (.targetPattern target) || any p target
  | _, .handler span param body => p (.handler span param body) || any p param || any p body
  | _, .nil (c := c) => p (.nil (c := c))
  | _, .cons head tail => p (.cons head tail) || any p head || any p tail
  | _, .absent (c := c) => p (.absent (c := c))
  | _, .present value => p (.present value) || any p value

/-- The recursion of `any` goes to the children. The cases differ in how many these are. -/
theorem any_eq_children (p : {c : Category} → Node c → Bool) {c : Category} (n : Node c) :
    n.any p = (p n || n.children.any fun m => m.2.any p) := by
  have h₀ : ∀ x : Bool, x = (x || false) := by decide
  have h₁ : ∀ x a : Bool, (x || a) = (x || (a || false)) := by decide
  have h₂ : ∀ x a b : Bool, (x || a || b) = (x || (a || (b || false))) := by decide
  have h₃ : ∀ x a b c : Bool, (x || a || b || c) = (x || (a || (b || (c || false)))) := by decide
  have h₄ : ∀ x a b c d : Bool,
      (x || a || b || c || d) = (x || (a || (b || (c || (d || false))))) := by decide
  cases n <;>
    first
    | exact h₀ _
    | exact h₁ _ _
    | exact h₂ _ _ _
    | exact h₃ _ _ _ _
    | exact h₄ _ _ _ _ _

theorem any_eq_true {p : {c : Category} → Node c → Bool} {c : Category} {n : Node c} :
    n.any p = true ↔ p n = true ∨ ∃ m ∈ n.children, m.2.any p = true := by
  rw [any_eq_children, Bool.or_eq_true, List.any_eq_true]

/-- A node occurs where a node occurs in which it occurs. -/
theorem any_of_any {p q : {c : Category} → Node c → Bool}
    (hpq : ∀ {c : Category} (n : Node c), p n = true → n.any q = true) {c : Category}
    (n : Node c) (h : n.any p = true) : n.any q = true := by
  induction n using children_induction with
  | h n ih =>
    rcases any_eq_true.mp h with hp | ⟨m, hm, hp⟩
    · exact hpq n hp
    · exact any_eq_true.mpr (.inr ⟨m, hm, ih m hm hp⟩)

end EcmaTree.Node
