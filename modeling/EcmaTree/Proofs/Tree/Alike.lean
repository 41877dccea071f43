import EcmaTree.Proofs.Tree.Spans
import Mathlib.Data.List.Forall2

/-!
# Trees that are alike

Two trees are alike under a relation of spans if they are of the same form with the same
names, values and flags, and spans at corresponding places of them are related. So trees that
are alike are equal apart from their spans, and what the relation says of a span holds of
every span of a tree.
-/

namespace EcmaTree

section Parts

variable (R : Span → Span → Prop)

structure Identifier.Alike (id id' : Identifier) : Prop where
  place : R id.span id'.span
  name_eq : id'.name = id.name

structure Literal.Alike (lit lit' : Literal) : Prop where
  place : R lit.span lit'.span
  value_eq : lit'.value = lit.value
  raw_eq : lit'.raw = lit.raw

structure TemplateElement.Alike (e e' : TemplateElement) : Prop where
  place : R e.span e'.span
  raw_eq : e'.raw = e.raw
  tail_eq : e'.tail = e.tail

variable {R} {id id' : Identifier} {lit lit' : Literal} {e e' : TemplateElement}

theorem Identifier.Alike.erase_eq (h : id.Alike R id') : id'.erase = id.erase := by
  unfold Identifier.erase
  rw [h.name_eq]

theorem Literal.Alike.erase_eq (h : lit.Alike R lit') : lit'.erase = lit.erase := by
  unfold Literal.erase
  rw [h.value_eq, h.raw_eq]

theorem TemplateElement.Alike.erase_eq (h : e.Alike R e') : e'.erase = e.erase := by
  unfold TemplateElement.erase
  rw [h.raw_eq, h.tail_eq]

/-- Names that are alike under a relation that implies equality are equal. -/
theorem Identifier.Alike.eq (hR : ∀ s s', R s s' → s' = s) (h : id.Alike R id') : id' = id := by
  obtain ⟨place, name_eq⟩ := h
  cases id
  cases id'
  cases hR _ _ place
  cases name_eq
  rfl

theorem Literal.Alike.eq (hR : ∀ s s', R s s' → s' = s) (h : lit.Alike R lit') : lit' = lit := by
  obtain ⟨place, value_eq, raw_eq⟩ := h
  cases lit
  cases lit'
  cases hR _ _ place
  cases value_eq
  cases raw_eq
  rfl

theorem TemplateElement.Alike.eq (hR : ∀ s s', R s s' → s' = s) (h : e.Alike R e') : e' = e := by
  obtain ⟨place, raw_eq, tail_eq⟩ := h
  cases e
  cases e'
  cases hR _ _ place
  cases raw_eq
  cases tail_eq
  rfl

end Parts

/-- Items that are related one by one have equal images where related items have. -/
theorem map_eq_of_forall₂ {α β : Type} {R : α → α → Prop} {f : α → β} {xs ys : List α}
    (hf : ∀ x y, R x y → f y = f x) (h : List.Forall₂ R xs ys) : ys.map f = xs.map f := by
  induction h with
  | nil => rfl
  | cons hxy _ ih => rw [List.map_cons, List.map_cons, hf _ _ hxy, ih]

theorem map_eq_of_rel {α β : Type} {R : α → α → Prop} {f : α → β} {x y : Option α}
    (hf : ∀ x y, R x y → f y = f x) (h : Option.Rel R x y) : y.map f = x.map f := by
  cases h with
  | none => rfl
  | some hxy => exact congrArg some (hf _ _ hxy)

theorem eq_of_forall₂ {α : Type} {R : α → α → Prop} {xs ys : List α}
    (hR : ∀ x y, R x y → y = x) (h : List.Forall₂ R xs ys) : ys = xs := by
  simpa using map_eq_of_forall₂ (f := id) hR h

theorem eq_of_rel {α : Type} {R : α → α → Prop} {x y : Option α}
    (hR : ∀ x y, R x y → y = x) (h : Option.Rel R x y) : y = x := by
  simpa using map_eq_of_rel (f := id) hR h

theorem forall_map_of_forall₂ {α β : Type} {R : α → α → Prop} {P : β → Prop} {f : α → β}
    {xs ys : List α} (hf : ∀ x y, R x y → P (f x)) (h : List.Forall₂ R xs ys) :
    ∀ b ∈ xs.map f, P b := by
  induction h with
  | nil => nofun
  | cons hxy _ ih => exact List.forall_mem_cons.mpr ⟨hf _ _ hxy, ih⟩

theorem forall_toList_of_rel {α β : Type} {R : α → α → Prop} {P : β → Prop} {f : α → β}
    {x y : Option α} (hf : ∀ x y, R x y → P (f x)) (h : Option.Rel R x y) :
    ∀ b ∈ (x.map f).toList, P b := by
  cases h with
  | none => nofun
  | some hxy => exact List.forall_mem_singleton.mpr (hf _ _ hxy)

/-- A list or an optional child has no place of its own. -/
def Category.IsPlaced : Category → Prop
  | .list _ | .option _ => False
  | _ => True

/-- The same form, with related spans. -/
inductive Node.Alike (R : Span → Span → Prop) : {c : Category} → Node c → Node c → Prop
  | identifier : name.Alike R name' → Alike R (.identifier name) (.identifier name')
  | literal : lit.Alike R lit' → Alike R (.literal lit) (.literal lit')
  | this : R sp sp' → Alike R (.this sp) (.this sp')
  | array : R sp sp' → Alike R elements elements' →
      Alike R (.array sp elements) (.array sp' elements')
  | object : R sp sp' → Alike R members members' →
      Alike R (.object sp members) (.object sp' members')
  | function : R sp sp' → Option.Rel (Identifier.Alike R) name name' → Alike R params params' →
      Alike R body body' → Alike R (.function sp name params body generator)
        (.function sp' name' params' body' generator)
  | arrow : R sp sp' → Alike R params params' → Alike R body body' →
      Alike R (.arrow sp params body) (.arrow sp' params' body')
  | template : R sp sp' → List.Forall₂ (TemplateElement.Alike R) quasis quasis' →
      Alike R expressions expressions' →
      Alike R (.template sp quasis expressions) (.template sp' quasis' expressions')
  | unary : R sp sp' → Alike R argument argument' →
      Alike R (.unary sp operator argument) (.unary sp' operator argument')
  | update : R sp sp' → Alike R argument argument' →
      Alike R (.update sp operator isPrefix argument)
        (.update sp' operator isPrefix argument')
  | binary : R sp sp' → Alike R left left' → Alike R right right' →
      Alike R (.binary sp operator left right) (.binary sp' operator left' right')
  | logical : R sp sp' → Alike R left left' → Alike R right right' →
      Alike R (.logical sp operator left right) (.logical sp' operator left' right')
  | assignment : R sp sp' → Alike R target target' → Alike R value value' →
      Alike R (.assignment sp operator target value)
        (.assignment sp' operator target' value')
  | conditional : R sp sp' → Alike R test test' → Alike R consequent consequent' →
      Alike R alternate alternate' → Alike R (.conditional sp test consequent alternate)
        (.conditional sp' test' consequent' alternate')
  | call : R sp sp' → Alike R callee callee' → Alike R arguments arguments' →
      Alike R (.call sp callee arguments) (.call sp' callee' arguments')
  | new : R sp sp' → Alike R callee callee' → Alike R arguments arguments' →
      Alike R (.new sp callee arguments) (.new sp' callee' arguments')
  | member : R sp sp' → Alike R obj obj' → Alike R prop prop' →
      Alike R (.member sp obj prop computed) (.member sp' obj' prop' computed)
  | sequence : R sp sp' → Alike R expressions expressions' →
      Alike R (.sequence sp expressions) (.sequence sp' expressions')
  | yield : R sp sp' → Alike R argument argument' →
      Alike R (.yield sp argument delegate) (.yield sp' argument' delegate)
  | item : Alike R value value' → Alike R (.item value) (.item value')
  | spread : R sp sp' → Alike R argument argument' →
      Alike R (.spread sp argument) (.spread sp' argument')
  | rest : R sp sp' → Alike R argument argument' →
      Alike R (.rest sp argument) (.rest sp' argument')
  | property : R sp sp' → Alike R key key' → Alike R value value' →
      Alike R (.property sp key value kind method shorthand)
        (.property sp' key' value' kind method shorthand)
  | spreadMember : R sp sp' → Alike R argument argument' →
      Alike R (.spreadMember sp argument) (.spreadMember sp' argument')
  | nameKey : name.Alike R name' → Alike R (.nameKey name) (.nameKey name')
  | literalKey : lit.Alike R lit' → Alike R (.literalKey lit) (.literalKey lit')
  | computedKey : Alike R value value' → Alike R (.computedKey value) (.computedKey value')
  | namePattern : name.Alike R name' → Alike R (.namePattern name) (.namePattern name')
  | objectPattern : R sp sp' → Alike R members members' →
      Alike R (.objectPattern sp members) (.objectPattern sp' members')
  | arrayPattern : R sp sp' → Alike R elements elements' →
      Alike R (.arrayPattern sp elements) (.arrayPattern sp' elements')
  | defaultPattern : R sp sp' → Alike R target target' → Alike R value value' →
      Alike R (.defaultPattern sp target value) (.defaultPattern sp' target' value')
  | restPattern : R sp sp' → Alike R argument argument' →
      Alike R (.restPattern sp argument) (.restPattern sp' argument')
  | memberPattern : R sp sp' → Alike R obj obj' → Alike R prop prop' →
      Alike R (.memberPattern sp obj prop computed)
        (.memberPattern sp' obj' prop' computed)
  | propertyPattern : R sp sp' → Alike R key key' → Alike R value value' →
      Alike R (.propertyPattern sp key value shorthand)
        (.propertyPattern sp' key' value' shorthand)
  | restMember : R sp sp' → Alike R argument argument' →
      Alike R (.restMember sp argument) (.restMember sp' argument')
  | spreadPattern : R sp sp' → Alike R argument argument' →
      Alike R (.spreadPattern sp argument) (.spreadPattern sp' argument')
  | block : R sp sp' → Alike R body body' → Alike R (.block sp body) (.block sp' body')
  | blockBody : Alike R b b' → Alike R (.blockBody b) (.blockBody b')
  | conciseBody : Alike R value value' → Alike R (.conciseBody value) (.conciseBody value')
  | expressionStatement : R sp sp' → Alike R value value' →
      Alike R (.expressionStatement sp value directive)
        (.expressionStatement sp' value' directive)
  | blockStatement : Alike R b b' → Alike R (.blockStatement b) (.blockStatement b')
  | emptyStatement : R sp sp' → Alike R (.emptyStatement sp) (.emptyStatement sp')
  | declarationStatement : Alike R decl decl' →
      Alike R (.declarationStatement decl) (.declarationStatement decl')
  | functionDeclaration : R sp sp' → Option.Rel (Identifier.Alike R) name name' →
      Alike R params params' → Alike R body body' →
      Alike R (.functionDeclaration sp name params body generator)
        (.functionDeclaration sp' name' params' body' generator)
  | returnStatement : R sp sp' → Alike R argument argument' →
      Alike R (.returnStatement sp argument) (.returnStatement sp' argument')
  | ifStatement : R sp sp' → Alike R test test' → Alike R consequent consequent' →
      Alike R alternate alternate' → Alike R (.ifStatement sp test consequent alternate)
        (.ifStatement sp' test' consequent' alternate')
  | forStatement : R sp sp' → Alike R init init' → Alike R test test' → Alike R step step' →
      Alike R body body' → Alike R (.forStatement sp init test step body)
        (.forStatement sp' init' test' step' body')
  | forInStatement : R sp sp' → Alike R left left' → Alike R right right' →
      Alike R body body' → Alike R (.forInStatement sp left right body)
        (.forInStatement sp' left' right' body')
  | forOfStatement : R sp sp' → Alike R left left' → Alike R right right' →
      Alike R body body' → Alike R (.forOfStatement sp left right body)
        (.forOfStatement sp' left' right' body')
  | whileStatement : R sp sp' → Alike R test test' → Alike R body body' →
      Alike R (.whileStatement sp test body) (.whileStatement sp' test' body')
  | breakStatement : R sp sp' → Option.Rel (Identifier.Alike R) label label' →
      Alike R (.breakStatement sp label) (.breakStatement sp' label')
  | continueStatement : R sp sp' → Option.Rel (Identifier.Alike R) label label' →
      Alike R (.continueStatement sp label) (.continueStatement sp' label')
  | labeledStatement : R sp sp' → label.Alike R label' → Alike R body body' →
      Alike R (.labeledStatement sp label body) (.labeledStatement sp' label' body')
  | throwStatement : R sp sp' → Alike R argument argument' →
      Alike R (.throwStatement sp argument) (.throwStatement sp' argument')
  | tryStatement : R sp sp' → Alike R b b' → Alike R h h' → Alike R finalizer finalizer' →
      Alike R (.tryStatement sp b h finalizer) (.tryStatement sp' b' h' finalizer')
  | declaration : R sp sp' → Alike R declarators declarators' →
      Alike R (.declaration sp kind declarators) (.declaration sp' kind declarators')
  | declarator : R sp sp' → Alike R target target' → Alike R init init' →
      Alike R (.declarator sp target init) (.declarator sp' target' init')
  | initDeclaration : Alike R decl decl' →
      Alike R (.initDeclaration decl) (.initDeclaration decl')
  | initExpression : Alike R value value' →
      Alike R (.initExpression value) (.initExpression value')
  | targetDeclaration : Alike R decl decl' →
      Alike R (.targetDeclaration decl) (.targetDeclaration decl')
  | targetPattern : Alike R pattern pattern' →
      Alike R (.targetPattern pattern) (.targetPattern pattern')
  | handler : R sp sp' → Alike R param param' → Alike R body body' →
      Alike R (.handler sp param body) (.handler sp' param' body')
  | nil : Alike R .nil .nil
  | cons : Alike R head head' → Alike R tail tail' → Alike R (.cons head tail) (.cons head' tail')
  | absent : Alike R .absent .absent
  | present : Alike R value value' → Alike R (.present value) (.present value')
namespace Node

variable {R : Span → Span → Prop} {c : Category} {n n' : Node c}

/-- Trees that are alike are equal apart from their spans. -/
theorem Alike.erase_eq (h : Alike R n n') : n'.erase = n.erase := by
  induction h with
  | identifier hid => exact congrArg Node.identifier hid.erase_eq
  | literal hlit => exact congrArg Node.literal hlit.erase_eq
  | nameKey hid => exact congrArg Node.nameKey hid.erase_eq
  | literalKey hlit => exact congrArg Node.literalKey hlit.erase_eq
  | namePattern hid => exact congrArg Node.namePattern hid.erase_eq
  | function _ hid _ _ params body | functionDeclaration _ hid _ _ params body =>
    simp only [erase, params, body, map_eq_of_rel (fun _ _ h => h.erase_eq) hid]
  | template _ hquasis _ ih =>
    simp only [erase, ih, map_eq_of_forall₂ (fun _ _ h => h.erase_eq) hquasis]
  | breakStatement _ hlabel | continueStatement _ hlabel =>
    simp only [erase, map_eq_of_rel (fun _ _ h => h.erase_eq) hlabel]
  | labeledStatement _ hlabel _ ih => simp only [erase, ih, hlabel.erase_eq]
  | _ => simp only [erase, *]

/-- Under a relation that implies equality only equal trees are alike. -/
theorem Alike.eq (hR : ∀ s s', R s s' → s' = s) (h : Alike R n n') : n' = n := by
  induction h with
  | identifier hid => rw [hid.eq hR]
  | literal hlit => rw [hlit.eq hR]
  | nameKey hid => rw [hid.eq hR]
  | literalKey hlit => rw [hlit.eq hR]
  | namePattern hid => rw [hid.eq hR]
  | function hs hid _ _ params body | functionDeclaration hs hid _ _ params body =>
    rw [hR _ _ hs, eq_of_rel (fun _ _ h => h.eq hR) hid, params, body]
  | template hs hquasis _ ih =>
    rw [hR _ _ hs, eq_of_forall₂ (fun _ _ h => h.eq hR) hquasis, ih]
  | breakStatement hs hlabel | continueStatement hs hlabel =>
    rw [hR _ _ hs, eq_of_rel (fun _ _ h => h.eq hR) hlabel]
  | labeledStatement hs hlabel _ ih => rw [hR _ _ hs, hlabel.eq hR, ih]
  | _ =>
    subst_vars
    first
    | rfl
    | have hs := hR _ _ ‹R _ _›
      rw [hs]

/-- What a relation says of a span holds of all spans of a tree that is like another. -/
theorem Alike.forall_spans {P : Span → Prop} (hR : ∀ s s', R s s' → P s) (h : Alike R n n') :
    ∀ s ∈ n.spans, P s := by
  induction h with
  | identifier hid | nameKey hid | namePattern hid =>
    exact List.forall_mem_singleton.mpr (hR _ _ hid.place)
  | literal hlit | literalKey hlit => exact List.forall_mem_singleton.mpr (hR _ _ hlit.place)
  | function hs hid _ _ params body | functionDeclaration hs hid _ _ params body =>
    have hname := forall_toList_of_rel (fun _ _ h => hR _ _ (Identifier.Alike.place h)) hid
    simp only [spans, List.forall_mem_cons, List.forall_mem_append, List.cons_append]
    exact ⟨hR _ _ hs, ⟨hname, params⟩, body⟩
  | template hs hquasis _ ih =>
    have hq := forall_map_of_forall₂ (fun _ _ h => hR _ _ (TemplateElement.Alike.place h)) hquasis
    simp only [spans, List.forall_mem_cons, List.forall_mem_append, List.cons_append]
    exact ⟨hR _ _ hs, hq, ih⟩
  | breakStatement hs hlabel | continueStatement hs hlabel =>
    have hname := forall_toList_of_rel (fun _ _ h => hR _ _ (Identifier.Alike.place h)) hlabel
    exact List.forall_mem_cons.mpr ⟨hR _ _ hs, hname⟩
  | labeledStatement hs hlabel _ ih =>
    exact List.forall_mem_cons.mpr ⟨hR _ _ hs, List.forall_mem_cons.mpr ⟨hR _ _ hlabel.place, ih⟩⟩
  | this hs | emptyStatement hs => exact List.forall_mem_singleton.mpr (hR _ _ hs)
  | cons _ _ head tail => exact List.forall_mem_append.mpr ⟨head, tail⟩
  | nil | absent => nofun
  | _ =>
    simp only [spans, List.forall_mem_cons, List.forall_mem_append, List.cons_append]
    first
    | assumption
    | have hs := hR _ _ ‹R _ _›
      and_intros <;> assumption

/-- A tree is like itself under a relation that is reflexive. -/
theorem alike_refl (hR : ∀ s, R s s) (n : Node c) : Alike R n n := by
  have hname : ∀ id : Identifier, id.Alike R id := fun id => ⟨hR _, rfl⟩
  have hlit : ∀ lit : Literal, lit.Alike R lit := fun lit => ⟨hR _, rfl, rfl⟩
  have hoption : ∀ id : Option Identifier, Option.Rel (Identifier.Alike R) id id := by
    rintro (_ | id)
    · exact .none
    · exact .some (hname id)
  have hquasis : ∀ quasis : List TemplateElement,
      List.Forall₂ (TemplateElement.Alike R) quasis quasis :=
    fun _ => List.forall₂_same.mpr fun _ _ => ⟨hR _, rfl, rfl⟩
  induction n with
  | nil => exact .nil
  | absent => exact .absent
  | _ =>
    constructor <;>
      first
      | assumption
      | exact hR _
      | exact hname _
      | exact hlit _
      | exact hoption _
      | exact hquasis _

/-- Nodes that are alike lie at related places. -/
theorem Alike.span (h : Alike R n n') (hc : c.IsPlaced) : R n.span n'.span := by
  induction h with
  | identifier hid | nameKey hid | namePattern hid => exact hid.place
  | literal hlit | literalKey hlit => exact hlit.place
  | item _ ih | computedKey _ ih | blockBody _ ih | conciseBody _ ih | blockStatement _ ih
  | declarationStatement _ ih | initDeclaration _ ih | initExpression _ ih
  | targetDeclaration _ ih | targetPattern _ ih =>
    exact ih trivial
  | nil | cons | absent | present => exact hc.elim
  | _ => assumption

theorem alike_ofList {xs ys : List (Node c)} (h : List.Forall₂ (Alike R) xs ys) :
    Alike R (ofList xs) (ofList ys) := by
  induction h with
  | nil => exact .nil
  | cons hxy _ ih => exact .cons hxy ih

theorem alike_ofOption {x y : Option (Node c)} (h : Option.Rel (Alike R) x y) :
    Alike R (ofOption x) (ofOption y) := by
  cases h with
  | none => exact .absent
  | some hxy => exact .present hxy

theorem alike_ofHoleyList {xs ys : List (Option (Node c))}
    (h : List.Forall₂ (Option.Rel (Alike R)) xs ys) :
    Alike R (ofHoleyList xs) (ofHoleyList ys) := by
  unfold ofHoleyList
  apply alike_ofList
  rw [List.forall₂_map_left_iff, List.forall₂_map_right_iff]
  exact h.imp fun _ _ => alike_ofOption

theorem Alike.kindName_eq {e e' : Expression} (h : Alike R e e') : e'.kindName = e.kindName := by
  cases h <;> rfl

theorem Alike.isName_eq {p p' : Pattern} (h : Alike R p p') : p'.isName = p.isName := by
  cases h <;> rfl

end Node

end EcmaTree
