import EcmaTree.Proofs.Tree.Occurrence
import EcmaTree.Target.Check
import EcmaTree.Target.Conversion

/-!
# Shorthand defaults that stay expressions

A shorthand default such as `{a = 1}` has a meaning in a pattern only. One that is still a
property of an object literal is bare. The literals and lists that an expression consists of
on the outside are its spine: what they hold becomes part of a pattern when the expression
does, apart from the default value of a shorthand, which the pattern keeps as it is.
-/

namespace EcmaTree.Node

variable {c : Category}

/-- A shorthand default in an object literal. -/
def isBareDefault : {c : Category} → Node c → Bool
  | _, .property _ _ (.assignment _ _ _ _) _ _ shorthand => shorthand
  | _, _ => false

/-- Whether every bare default below a node is held: it stands on the spine of the default value
of a shorthand in a pattern, or on the spine of the node itself if that `isOpen`. With
`isShorthand` the node is the value of a shorthand. -/
def defaultsHeld : {c : Category} → Node c → (isOpen isShorthand : Bool) → Bool
  | _, .array _ elements, isOpen, _ => defaultsHeld elements isOpen false
  | _, .sequence _ expressions, isOpen, _ => defaultsHeld expressions isOpen false
  | _, .object _ members, isOpen, _ => defaultsHeld members isOpen false
  | _, .item value, isOpen, _ => defaultsHeld value isOpen false
  | _, .spread _ argument, isOpen, _ => defaultsHeld argument isOpen false
  | _, .spreadMember _ argument, isOpen, _ => defaultsHeld argument isOpen false
  | _, .property _ key value _ _ shorthand, isOpen, _ =>
    defaultsHeld key false false && defaultsHeld value isOpen shorthand
  | _, .assignment _ _ target value, isOpen, isShorthand =>
    (isOpen || !isShorthand) && defaultsHeld target false false &&
      defaultsHeld value isShorthand false
  | _, .cons head tail, isOpen, _ =>
    defaultsHeld head isOpen false && defaultsHeld tail isOpen false
  | _, .present value, isOpen, _ => defaultsHeld value isOpen false
  | _, .propertyPattern _ key value shorthand, _, _ =>
    defaultsHeld key false false && defaultsHeld value false shorthand
  | _, .defaultPattern _ target value, _, isShorthand =>
    defaultsHeld target false false && defaultsHeld value isShorthand false
  | _, .function _ _ params body _, _, _ | _, .functionDeclaration _ _ params body _, _, _ =>
    defaultsHeld params false false && defaultsHeld body false false
  | _, .arrow _ params body, _, _ =>
    defaultsHeld params false false && defaultsHeld body false false
  | _, .template _ _ expressions, _, _ => defaultsHeld expressions false false
  | _, .unary _ _ argument, _, _ | _, .update _ _ _ argument, _, _ =>
    defaultsHeld argument false false
  | _, .binary _ _ left right, _, _ | _, .logical _ _ left right, _, _ =>
    defaultsHeld left false false && defaultsHeld right false false
  | _, .conditional _ test consequent alternate, _, _ =>
    defaultsHeld test false false && defaultsHeld consequent false false &&
      defaultsHeld alternate false false
  | _, .call _ callee arguments, _, _ | _, .new _ callee arguments, _, _ =>
    defaultsHeld callee false false && defaultsHeld arguments false false
  | _, .member _ obj prop _, _, _ | _, .memberPattern _ obj prop _, _, _ =>
    defaultsHeld obj false false && defaultsHeld prop false false
  | _, .yield _ argument _, _, _ => defaultsHeld argument false false
  | _, .rest _ argument, _, _ | _, .restPattern _ argument, _, _
  | _, .restMember _ argument, _, _ => defaultsHeld argument false false
  | _, .spreadPattern _ argument, _, _ => defaultsHeld argument false false
  | _, .computedKey value, _, _ | _, .conciseBody value, _, _ => defaultsHeld value false false
  | _, .objectPattern _ members, _, _ => defaultsHeld members false false
  | _, .arrayPattern _ elements, _, _ => defaultsHeld elements false false
  | _, .block _ body, _, _ => defaultsHeld body false false
  | _, .blockBody b, _, _ | _, .blockStatement b, _, _ => defaultsHeld b false false
  | _, .expressionStatement _ value _, _, _ => defaultsHeld value false false
  | _, .declarationStatement decl, _, _ | _, .initDeclaration decl, _, _
  | _, .targetDeclaration decl, _, _ => defaultsHeld decl false false
  | _, .returnStatement _ argument, _, _ => defaultsHeld argument false false
  | _, .throwStatement _ argument, _, _ => defaultsHeld argument false false
  | _, .ifStatement _ test consequent alternate, _, _ =>
    defaultsHeld test false false && defaultsHeld consequent false false &&
      defaultsHeld alternate false false
  | _, .forStatement _ init test step body, _, _ =>
    defaultsHeld init false false && defaultsHeld test false false &&
      defaultsHeld step false false && defaultsHeld body false false
  | _, .forInStatement _ left right body, _, _ | _, .forOfStatement _ left right body, _, _ =>
    defaultsHeld left false false && defaultsHeld right false false &&
      defaultsHeld body false false
  | _, .whileStatement _ test body, _, _ =>
    defaultsHeld test false false && defaultsHeld body false false
  | _, .labeledStatement _ _ body, _, _ => defaultsHeld body false false
  | _, .tryStatement _ b h finalizer, _, _ =>
    defaultsHeld b false false && defaultsHeld h false false &&
      defaultsHeld finalizer false false
  | _, .declaration _ _ declarators, _, _ => defaultsHeld declarators false false
  | _, .declarator _ target init, _, _ =>
    defaultsHeld target false false && defaultsHeld init false false
  | _, .initExpression value, _, _ => defaultsHeld value false false
  | _, .targetPattern target, _, _ => defaultsHeld target false false
  | _, .handler _ param body, _, _ =>
    defaultsHeld param false false && defaultsHeld body false false
  | _, .identifier _, _, _ | _, .literal _, _, _ | _, .this _, _, _ | _, .nameKey _, _, _
  | _, .literalKey _, _, _ | _, .namePattern _, _, _ | _, .emptyStatement _, _, _
  | _, .breakStatement _ _, _, _ | _, .continueStatement _ _, _, _ | _, .nil, _, _
  | _, .absent, _, _ => true

/-- Whether the spine of a node has a bare default. -/
def opensDefault : {c : Category} → Node c → Bool
  | _, .array _ elements => opensDefault elements
  | _, .sequence _ expressions => opensDefault expressions
  | _, .object _ members => opensDefault members
  | _, .item value => opensDefault value
  | _, .spread _ argument => opensDefault argument
  | _, .spreadMember _ argument => opensDefault argument
  | _, .property span key value kind method shorthand =>
    (property span key value kind method shorthand).isBareDefault || opensDefault value
  | _, .cons head tail => opensDefault head || opensDefault tail
  | _, .present value => opensDefault value
  | _, _ => false

/-- A shorthand in a pattern whose default value has a bare default on its spine. -/
def isKeeper : {c : Category} → Node c → Bool
  | _, .propertyPattern _ _ (.defaultPattern _ _ value) shorthand =>
    shorthand && value.opensDefault
  | _, _ => false

theorem isKeeper_eq_true {span span' : Span} {key : Key} {target : Pattern} {value : Expression}
    {shorthand : Bool} :
    (propertyPattern span key (.defaultPattern span' target value) shorthand).isKeeper = true ↔
      shorthand = true ∧ value.opensDefault = true :=
  Bool.and_eq_true_iff

theorem defaultsHeld_property {span : Span} {key : Key} {value : Expression}
    {kind : PropertyKind} {method shorthand isOpen isShorthand : Bool} :
    (property span key value kind method shorthand).defaultsHeld isOpen isShorthand = true ↔
      key.defaultsHeld false false = true ∧ value.defaultsHeld isOpen shorthand = true :=
  Bool.and_eq_true_iff

theorem defaultsHeld_propertyPattern {span : Span} {key : Key} {value : Pattern}
    {shorthand isOpen isShorthand : Bool} :
    (propertyPattern span key value shorthand).defaultsHeld isOpen isShorthand = true ↔
      key.defaultsHeld false false = true ∧ value.defaultsHeld false shorthand = true :=
  Bool.and_eq_true_iff

theorem defaultsHeld_defaultPattern {span : Span} {target : Pattern} {value : Expression}
    {isOpen isShorthand : Bool} :
    (defaultPattern span target value).defaultsHeld isOpen isShorthand = true ↔
      target.defaultsHeld false false = true ∧ value.defaultsHeld isShorthand false = true :=
  Bool.and_eq_true_iff

theorem defaultsHeld_assignment {span : Span} {operator : AssignmentOperator} {target : Pattern}
    {value : Expression} {isOpen isShorthand : Bool} :
    (assignment span operator target value).defaultsHeld isOpen isShorthand = true ↔
      (isOpen = true ∨ isShorthand = false) ∧ target.defaultsHeld false false = true ∧
        value.defaultsHeld isShorthand false = true := by
  change ((isOpen || !isShorthand) && _ && _) = true ↔ _
  rw [Bool.and_eq_true, Bool.and_eq_true, Bool.or_eq_true, Bool.not_eq_true', and_assoc]

theorem defaultsHeld_cons {head : Node c} {tail : Node (.list c)} {isOpen isShorthand : Bool} :
    (cons head tail).defaultsHeld isOpen isShorthand = true ↔
      head.defaultsHeld isOpen false = true ∧ tail.defaultsHeld isOpen false = true :=
  Bool.and_eq_true_iff

theorem defaultsHeld_mono (n : Node c) {isShorthand : Bool}
    (h : n.defaultsHeld false isShorthand = true) : n.defaultsHeld true isShorthand = true := by
  induction n generalizing isShorthand with
  | assignment span operator target value iht ihv =>
    obtain ⟨-, ht, hv⟩ := defaultsHeld_assignment.mp h
    exact defaultsHeld_assignment.mpr ⟨.inl rfl, ht, hv⟩
  | property span key value kind method shorthand ihk ihv =>
    obtain ⟨hk, hv⟩ := defaultsHeld_property.mp h
    exact defaultsHeld_property.mpr ⟨hk, ihv hv⟩
  | cons head tail ihh iht =>
    obtain ⟨hh, ht⟩ := defaultsHeld_cons.mp h
    exact defaultsHeld_cons.mpr ⟨ihh hh, iht ht⟩
  | array span elements ih => exact ih h
  | object span members ih => exact ih h
  | sequence span expressions ih => exact ih h
  | item value ih => exact ih h
  | spread span argument ih => exact ih h
  | spreadMember span argument ih => exact ih h
  | present value ih => exact ih h
  | _ => exact h

/-- Only for an assignment it matters whether an expression is the value of a shorthand. -/
theorem defaultsHeld_shorthand {e : Expression} {isOpen : Bool}
    (h : ∀ span operator target value, e ≠ .assignment span operator target value) :
    e.defaultsHeld isOpen true = e.defaultsHeld isOpen false := by
  cases e with
  | assignment span operator target value => exact absurd rfl (h span operator target value)
  | _ => rfl

theorem defaultsHeld_shorthand_pattern {p : Pattern} (h : p.defaultsHeld false false = true) :
    p.defaultsHeld false true = true := by
  cases p with
  | defaultPattern span target value =>
    obtain ⟨ht, hv⟩ := defaultsHeld_defaultPattern.mp h
    exact defaultsHeld_defaultPattern.mpr ⟨ht, defaultsHeld_mono value hv⟩
  | _ => exact h

/-- What is held with an open spine is held without one if the spine has no bare default. -/
theorem opensDefault_eq_false (n : Node c) (h : n.defaultsHeld true false = true) :
    n.opensDefault = false ↔ n.defaultsHeld false false = true := by
  induction n with
  | array span elements ih => exact ih h
  | sequence span expressions ih => exact ih h
  | object span members ih => exact ih h
  | item value ih => exact ih h
  | spread span argument ih => exact ih h
  | spreadMember span argument ih => exact ih h
  | present value ih => exact ih h
  | cons head tail ihh iht =>
    obtain ⟨hh, ht⟩ := defaultsHeld_cons.mp h
    rw [defaultsHeld_cons, ← ihh hh, ← iht ht]
    exact Bool.or_eq_false_iff
  | property span key value kind method shorthand ihk ihv =>
    obtain ⟨hk, hv⟩ := defaultsHeld_property.mp h
    rw [defaultsHeld_property, and_iff_right hk]
    cases shorthand with
    | false =>
      rw [← ihv hv]
      cases value <;> exact Iff.rfl
    | true =>
      cases value with
      | assignment span operator target value =>
        constructor
        · nofun
        · intro hv
          have hopen := (defaultsHeld_assignment.mp hv).1
          simp at hopen
      | _ => exact ihv hv
  | _ => exact ⟨fun _ => h, fun _ => rfl⟩

/-- Whether a node is a property whose name stands for its value as well. -/
def isShorthandItem : {c : Category} → Node c → Bool
  | _, .property _ _ _ _ _ shorthand | _, .propertyPattern _ _ _ shorthand => shorthand
  | _, _ => false

/-- What is held below a node that is no shorthand is held below its children. -/
theorem defaultsHeld_eq_children (n : Node c) (h : n.isShorthandItem = false) :
    n.defaultsHeld false false = n.children.all fun m => m.2.defaultsHeld false false := by
  have h₁ : ∀ a : Bool, a = (a && true) := by decide
  have h₂ : ∀ a b : Bool, (a && b) = (a && (b && true)) := by decide
  have h₃ : ∀ a b c : Bool, (a && b && c) = (a && (b && (c && true))) := by decide
  have h₄ : ∀ a b c d : Bool, (a && b && c && d) = (a && (b && (c && (d && true)))) := by decide
  cases n with
  | property span key value kind method shorthand =>
    obtain rfl : shorthand = false := h
    exact h₂ _ _
  | propertyPattern span key value shorthand =>
    obtain rfl : shorthand = false := h
    exact h₂ _ _
  | _ =>
    first
    | rfl
    | exact h₁ _
    | exact h₂ _ _
    | exact h₃ _ _ _
    | exact h₄ _ _ _ _

theorem any_property {p : {c : Category} → Node c → Bool} {span : Span} {key : Key}
    {value : Expression} {kind : PropertyKind} {method shorthand : Bool} :
    (property span key value kind method shorthand).any p = false ↔
      p (property span key value kind method shorthand) = false ∧ key.any p = false ∧
        value.any p = false := by
  change (_ || _ || _) = false ↔ _
  rw [Bool.or_eq_false_iff, Bool.or_eq_false_iff, and_assoc]

theorem any_propertyPattern {p : {c : Category} → Node c → Bool} {span : Span} {key : Key}
    {value : Pattern} {shorthand : Bool} :
    (propertyPattern span key value shorthand).any p = false ↔
      p (propertyPattern span key value shorthand) = false ∧ key.any p = false ∧
        value.any p = false := by
  change (_ || _ || _) = false ↔ _
  rw [Bool.or_eq_false_iff, Bool.or_eq_false_iff, and_assoc]

/-- Where no bare default occurs all of them are held. -/
theorem defaultsHeld_of_not_any (n : Node c) (h : n.any isBareDefault = false) :
    n.defaultsHeld false false = true := by
  induction n using children_induction with
  | h n ih =>
    cases hs : n.isShorthandItem with
    | false =>
      rw [defaultsHeld_eq_children n hs, List.all_eq_true]
      rw [any_eq_children, Bool.or_eq_false_iff, List.any_eq_false] at h
      intro m hm
      exact ih m hm (by simpa using h.2 m hm)
    | true =>
      cases n with
      | property span key value kind method shorthand =>
        obtain rfl : shorthand = true := hs
        obtain ⟨hb, hk, hv⟩ := any_property.mp h
        have hv := ih ⟨_, value⟩ (List.mem_cons_of_mem _ List.mem_cons_self) hv
        refine defaultsHeld_property.mpr ⟨ih ⟨_, key⟩ List.mem_cons_self hk, ?_⟩
        rw [defaultsHeld_shorthand]
        · exact hv
        · rintro _ _ _ _ rfl
          cases hb
      | propertyPattern span key value shorthand =>
        obtain rfl : shorthand = true := hs
        obtain ⟨-, hk, hv⟩ := any_propertyPattern.mp h
        have hv := ih ⟨_, value⟩ (List.mem_cons_of_mem _ List.mem_cons_self) hv
        exact defaultsHeld_propertyPattern.mpr
          ⟨ih ⟨_, key⟩ List.mem_cons_self hk, defaultsHeld_shorthand_pattern hv⟩
      | _ => cases hs

/-- Held bare defaults occur only where a shorthand holds them. -/
theorem not_any_of_defaultsHeld (n : Node c) (h : n.defaultsHeld false false = true)
    (hk : n.any isKeeper = false) : n.any isBareDefault = false := by
  induction n using children_induction with
  | h n ih =>
    cases hs : n.isShorthandItem with
    | false =>
      rw [defaultsHeld_eq_children n hs, List.all_eq_true] at h
      rw [any_eq_children, Bool.or_eq_false_iff, List.any_eq_false] at hk ⊢
      refine ⟨?_, fun m hm => ?_⟩
      · cases n with
        | property span key value kind method shorthand =>
          obtain rfl : shorthand = false := hs
          cases value <;> rfl
        | _ => rfl
      · have hkeep := hk.2 m hm
        rw [ih m hm (h m hm) (by simpa using hkeep)]
        nofun
    | true =>
      cases n with
      | property span key value kind method shorthand =>
        obtain rfl : shorthand = true := hs
        obtain ⟨hkey, hv⟩ := defaultsHeld_property.mp h
        obtain ⟨-, hk₁, hk₂⟩ := any_property.mp hk
        -- an assignment here would be a bare default, which nothing around it holds
        have hne : ∀ span operator target e, value ≠ .assignment span operator target e := by
          rintro _ _ _ _ rfl
          have hopen := (defaultsHeld_assignment.mp hv).1
          simp at hopen
        rw [defaultsHeld_shorthand hne] at hv
        refine any_property.mpr ⟨?_, ih ⟨_, key⟩ List.mem_cons_self hkey hk₁,
          ih ⟨_, value⟩ (List.mem_cons_of_mem _ List.mem_cons_self) hv hk₂⟩
        cases value with
        | assignment span operator target e => exact absurd rfl (hne span operator target e)
        | _ => rfl
      | propertyPattern span key value shorthand =>
        obtain rfl : shorthand = true := hs
        obtain ⟨hkey, hv⟩ := defaultsHeld_propertyPattern.mp h
        obtain ⟨hself, hk₁, hk₂⟩ := any_propertyPattern.mp hk
        have hv : value.defaultsHeld false false = true := by
          cases value with
          | defaultPattern span target e =>
            obtain ⟨ht, he⟩ := defaultsHeld_defaultPattern.mp hv
            refine defaultsHeld_defaultPattern.mpr ⟨ht, (opensDefault_eq_false e he).mp ?_⟩
            cases hopen : e.opensDefault with
            | false => rfl
            | true =>
              rw [isKeeper_eq_true.mpr ⟨rfl, hopen⟩] at hself
              cases hself
          | _ => exact hv
        exact any_propertyPattern.mpr ⟨rfl, ih ⟨_, key⟩ List.mem_cons_self hkey hk₁,
          ih ⟨_, value⟩ (List.mem_cons_of_mem _ List.mem_cons_self) hv hk₂⟩
      | _ => cases hs

/-- A shorthand that keeps something keeps a bare default. -/
theorem any_of_isKeeper (n : Node c) (h : n.isKeeper = true) : n.any isBareDefault = true := by
  cases n with
  | propertyPattern span key value shorthand =>
    cases value with
    | defaultPattern span target e =>
      obtain ⟨-, he⟩ := isKeeper_eq_true.mp h
      have hany : e.any isBareDefault = true := by
        cases hb : e.any isBareDefault with
        | true => rfl
        | false =>
          have hheld := defaultsHeld_of_not_any e hb
          rw [(opensDefault_eq_false e (defaultsHeld_mono e hheld)).mpr hheld] at he
          cases he
      refine any_eq_true.mpr (.inr ⟨⟨_, .defaultPattern span target e⟩, ?_, ?_⟩)
      · exact List.mem_cons_of_mem _ List.mem_cons_self
      · exact any_eq_true.mpr (.inr ⟨⟨_, e⟩, List.mem_cons_of_mem _ List.mem_cons_self, hany⟩)
    | _ => cases h
  | _ => cases h

/-- Where all bare defaults are held, one occurs exactly if a shorthand keeps one. -/
theorem any_isBareDefault_iff {n : Node c} (h : n.defaultsHeld false false = true) :
    n.any isBareDefault = true ↔ n.any isKeeper = true := by
  constructor
  · intro hb
    cases hk : n.any isKeeper with
    | true => rfl
    | false =>
      rw [not_any_of_defaultsHeld n h hk] at hb
      cases hb
  · exact any_of_any any_of_isKeeper n

section Lists

variable {isOpen isShorthand : Bool}

theorem defaultsHeld_ofList {xs : List (Node c)} :
    (ofList xs).defaultsHeld isOpen isShorthand = true ↔
      ∀ x ∈ xs, x.defaultsHeld isOpen false = true := by
  induction xs generalizing isShorthand with
  | nil => exact ⟨fun _ => nofun, fun _ => rfl⟩
  | cons x xs ih =>
    rw [ofList, defaultsHeld_cons, ih, List.forall_mem_cons]

theorem defaultsHeld_ofOption {x : Option (Node c)} :
    (ofOption x).defaultsHeld isOpen isShorthand = true ↔
      ∀ y, x = some y → y.defaultsHeld isOpen false = true := by
  cases x with
  | none => exact ⟨nofun, fun _ => rfl⟩
  | some x => exact ⟨fun h y hy => Option.some.inj hy ▸ h, fun h => h x rfl⟩

theorem defaultsHeld_ofHoleyList {xs : List (Option (Node c))} :
    (ofHoleyList xs).defaultsHeld isOpen isShorthand = true ↔
      ∀ x, some x ∈ xs → x.defaultsHeld isOpen false = true := by
  rw [ofHoleyList, defaultsHeld_ofList]
  constructor
  · intro h x hx
    have hx' := h (ofOption (some x)) (List.mem_map_of_mem hx)
    exact hx'
  · intro h x hx
    obtain ⟨y, hy, rfl⟩ := List.mem_map.mp hx
    exact defaultsHeld_ofOption.mpr fun z hz => h z (hz ▸ hy)

end Lists

end EcmaTree.Node
