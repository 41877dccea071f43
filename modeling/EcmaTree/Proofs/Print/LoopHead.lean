import EcmaTree.Proofs.Grammar.Patterns
import EcmaTree.Proofs.Print.Segments

/-!
# The operator `in` in the head of a loop

An `in` operator outside of all brackets would end the first part of the head of a loop. So an
expression there stands in parentheses if it contains one. The search for it goes along the operands
that may stand without brackets, but it passes by two places: the argument of a `yield`, and the
left side of an assignment, which may be a default value. In all other places it finds every
operator that the text shows.
-/

namespace EcmaTree

open Node

namespace Segment

variable {e : Expression} {row : List Segment} {floor : Precedence} {spelling : String}

/-- An operator that stands in no brackets stands in no parentheses. -/
theorem of_mem_guarded (h : .operator spelling ∈ guarded e row floor) :
    floor.rank ≤ e.precedence.rank ∧ .operator spelling ∈ row := by
  rcases guarded_eq e row floor with ⟨hrank, heq⟩ | heq
  · exact ⟨hrank, heq ▸ h⟩
  · rw [heq] at h
    cases List.mem_singleton.mp h

theorem operator_ne_braced (members : List (List Piece)) :
    .operator spelling ≠ braced members := by
  unfold braced
  split <;> nofun

theorem operator_ne_blockOf (statements : List (List Piece)) :
    .operator spelling ≠ blockOf statements := by
  unfold blockOf
  split <;> nofun

theorem operator_not_mem_functionWord (id : Option Identifier) (generator : Bool) :
    .operator spelling ∉ functionWord id generator := by
  cases id <;> cases generator <;> simp [functionWord]

theorem mem_of_mem_commaSeparated {rows : List (List Segment)}
    (h : .operator spelling ∈ commaSeparated rows) : ∃ row ∈ rows, .operator spelling ∈ row := by
  induction rows with
  | nil => cases h
  | cons row rows ih =>
    cases rows with
    | nil =>
      refine ⟨row, List.mem_cons_self, ?_⟩
      simpa [commaSeparated] using h
    | cons next rows =>
      simp only [commaSeparated, List.intersperse_cons_cons, List.flatten_cons, List.mem_append,
        List.mem_singleton, reduceCtorEq, false_or] at h ih
      rcases h with h | h
      · exact ⟨row, List.mem_cons_self, h⟩
      · obtain ⟨row, hrow, h⟩ := ih h
        exact ⟨row, List.mem_cons_of_mem _ hrow, h⟩

theorem operator_mem_access {target : Expression} {computed : Bool}
    {inner property : Precedence → List Segment}
    (h : .operator spelling ∈ receiver target computed inner ++ selector computed property) :
    .operator spelling ∈ inner .call ∨ .operator spelling ∈ property .primary := by
  rcases List.mem_append.mp h with h | h
  · unfold receiver at h
    split at h
    · cases List.mem_singleton.mp h
    · exact .inl h
  · unfold selector at h
    split at h
    · cases List.mem_singleton.mp h
    · rcases List.mem_cons.mp h with h | h
      · cases h
      · exact .inr h

end Segment

theorem BinaryOperator.eq_in_of_spelling {operator : BinaryOperator} :
    operator.spelling = "in" → operator = .in := by
  cases operator <;> decide

theorem LogicalOperator.spelling_ne_in (operator : LogicalOperator) :
    operator.spelling ≠ "in" := by
  cases operator <;> decide

theorem AssignmentOperator.spelling_ne_in (operator : AssignmentOperator) :
    operator.spelling ≠ "in" := by
  cases operator <;> decide

/-- The row of two operands: each is asked for as much strength as the operator has. -/
theorem Node.segments_binary (span : Span) (operator : BinaryOperator) (left right : Expression) :
    ∃ l r : Precedence, (Precedence.ofBinary operator).rank ≤ l.rank ∧
      (Precedence.ofBinary operator).rank ≤ r.rank ∧
      (Node.binary span operator left right).segments =
        Segment.guarded (.binary span operator left right)
          (left.segments l ++ .operator operator.spelling :: right.segments r) := by
  cases operator <;> exact ⟨_, _, by decide, by decide, rfl⟩

/-- Where more strength is asked for than an `in` operator has, the row does not show one. -/
def IsTight : (c : Category) → Segmented c → Prop
  | .expression, row =>
    ∀ floor, Precedence.relational.rank < floor.rank → .operator "in" ∉ row floor
  | _, _ => True

theorem isTight_guarded {e : Expression} {row : List Segment}
    (h : Precedence.relational.rank < e.precedence.rank → .operator "in" ∉ row) :
    IsTight .expression (Segment.guarded e row) := by
  intro floor hfloor hmem
  obtain ⟨hrank, hmem⟩ := Segment.of_mem_guarded hmem
  exact h (Nat.lt_of_lt_of_le hfloor hrank) hmem

/-- By induction on the node: an operand is asked for as much strength as its operator has. -/
theorem isTight_segments {c : Category} (n : Node c) : IsTight c n.segments := by
  induction n with
  | identifier | literal | this | array | template =>
    exact isTight_guarded fun _ h => by cases List.mem_singleton.mp h
  | object span members =>
    exact isTight_guarded fun _ h =>
      Segment.operator_ne_braced _ (List.mem_singleton.mp h)
  | function span id params body generator =>
    refine isTight_guarded fun _ h => ?_
    cases body with
    | block place statements =>
      rcases List.mem_append.mp h with h | h
      · exact Segment.operator_not_mem_functionWord id generator h
      · rcases List.mem_cons.mp h with h | h
        · cases h
        · rcases List.mem_cons.mp h with h | h
          · cases h
          · exact Segment.operator_ne_blockOf _ (List.mem_singleton.mp h)
  | unary span operator argument ih =>
    refine isTight_guarded fun _ h => ?_
    have hargument := ih .unary (by decide)
    split at h <;> simp [hargument] at h
  | update span operator before argument ih =>
    have hunary := ih .unary (by decide)
    have hcall := ih .call (by decide)
    cases before with
    | true => exact isTight_guarded fun _ h => by simp [hunary] at h
    | false => exact isTight_guarded fun _ h => by simp [hcall] at h
  | binary span operator left right ihl ihr =>
    obtain ⟨l, r, hl, hr, hrow⟩ := Node.segments_binary span operator left right
    rw [hrow]
    refine isTight_guarded fun hlt h => ?_
    change _ < (Precedence.ofBinary operator).rank at hlt
    rcases List.mem_append.mp h with h | h
    · exact ihl l (Nat.lt_of_lt_of_le hlt hl) h
    · rcases List.mem_cons.mp h with h | h
      · -- An `in` expression would itself be too loose for the place.
        obtain rfl := BinaryOperator.eq_in_of_spelling (Segment.operator.inj h).symm
        exact absurd hlt (by decide)
      · exact ihr r (Nat.lt_of_lt_of_le hlt hr) h
  | logical span operator left right =>
    refine isTight_guarded fun hlt => ?_
    change _ < (Precedence.ofLogical operator).rank at hlt
    cases operator <;> exact absurd hlt (by decide)
  | assignment | conditional | arrow | sequence | yield =>
    exact isTight_guarded fun hlt => absurd hlt (by simp [Expression.precedence, Precedence.rank])
  | call span callee arguments ih =>
    have hcallee := ih .call (by decide)
    exact isTight_guarded fun _ h => by simp [hcallee, Segment.parameters] at h
  | new span callee arguments ih =>
    have hcallee := ih .call (by decide)
    refine isTight_guarded fun _ h => ?_
    split at h <;> simp [hcallee, Segment.parameters] at h
  | member span target selector computed iht ihs =>
    refine isTight_guarded fun _ h => ?_
    rcases Segment.operator_mem_access h with h | h
    · exact iht .call (by decide) h
    · exact ihs .primary (by decide) h
  | _ => trivial

namespace Node

variable {c : Category} {n m : (c : Category) × Node c}

/-- The nodes right below a node in which the search for an `in` operator goes on. -/
def surveyed : {c : Category} → Node c → List ((c : Category) × Node c)
  | _, .binary _ _ left right | _, .logical _ _ left right => [⟨_, left⟩, ⟨_, right⟩]
  | _, .assignment _ _ _ value => [⟨_, value⟩]
  | _, .conditional _ test consequent alternate => [⟨_, test⟩, ⟨_, consequent⟩, ⟨_, alternate⟩]
  | _, .sequence _ expressions => [⟨_, expressions⟩]
  | _, .cons head tail => [⟨_, head⟩, ⟨_, tail⟩]
  | _, .unary _ _ argument => [⟨_, argument⟩]
  | _, .arrow _ _ body => [⟨_, body⟩]
  | _, .conciseBody value => [⟨_, value⟩]
  | _, _ => []

/-- The search comes from the first node to the second one. -/
abbrev Surveys : ((c : Category) × Node c) → ((c : Category) × Node c) → Prop :=
  Relation.ReflTransGen fun n m => m ∈ n.2.surveyed

theorem surveyed_subset_children (n : Node c) : n.surveyed ⊆ n.children := by
  cases n with
  | binary | logical | conditional | sequence | cons | unary | conciseBody =>
    exact List.Subset.refl _
  | assignment | arrow => exact List.subset_cons_self _ _
  | _ => exact List.nil_subset _

theorem occurs_of_surveys (h : Surveys n m) : Occurs n m :=
  Relation.ReflTransGen.mono (fun x _ hmem => surveyed_subset_children x.2 hmem) _ _ h

/-- The text of the node shows an `in` operator at a place that the search passes by. -/
inductive Escapes : ((c : Category) × Node c) → Prop
  | argument {span : Span} {value : Expression} {delegate : Bool}
      (h : .operator "in" ∈ value.segments .assignment) :
      Escapes ⟨_, .yield span (.present value) delegate⟩
  | target {span : Span} {operator : AssignmentOperator} {target : Pattern} {value : Expression}
      (h : .operator "in" ∈ (target.segments : List Segment)) :
      Escapes ⟨_, .assignment span operator target value⟩

/-- The search comes to a place that it passes by and that shows an `in` operator. -/
def Leaks (n : (c : Category) × Node c) : Prop :=
  ∃ x, Surveys n x ∧ Escapes x

theorem Leaks.of_surveyed (h : Leaks m) (hmem : m ∈ n.2.surveyed) : Leaks n := by
  obtain ⟨x, hsurveys, hescapes⟩ := h
  exact ⟨x, .head hmem hsurveys, hescapes⟩

/-- If the search finds nothing, an `in` operator in the row has escaped it. -/
def IsSurveyed : (c : Category) → Node c → Prop
  | .expression, e =>
    e.containsIn = false → ∀ floor, .operator "in" ∈ e.segments floor → Leaks ⟨_, e⟩
  | .body, b => b.containsIn = false → .operator "in" ∈ (b.segments : List Segment) → Leaks ⟨_, b⟩
  | .list .expression, es =>
    es.containsIn = false → ∀ row ∈ (es.segments : List (Precedence → List Segment)),
      .operator "in" ∈ row .assignment → Leaks ⟨_, es⟩
  | _, _ => True

theorem isSurveyed_of_row {e : Expression} {row : List Segment}
    (hrow : e.segments = Segment.guarded e row)
    (h : e.containsIn = false → .operator "in" ∈ row → Leaks ⟨_, e⟩) :
    IsSurveyed .expression e := by
  intro hsearch floor hmem
  rw [hrow] at hmem
  exact h hsearch (Segment.of_mem_guarded hmem).2

/-- An expression that binds tighter than the operator never shows it. -/
theorem isSurveyed_of_isTight {e : Expression}
    (h : Precedence.relational.rank < e.precedence.rank)
    (hrow : ∃ row, e.segments = Segment.guarded e row) : IsSurveyed .expression e := by
  obtain ⟨row, hrow⟩ := hrow
  refine isSurveyed_of_row hrow fun _ hmem => absurd ?_ (isTight_segments e e.precedence h)
  rw [hrow]
  unfold Segment.guarded Precedence.isLooser
  simpa using hmem

/-- By induction on the node: the search goes on in all operands but those that escape it. -/
theorem isSurveyed {c : Category} (n : Node c) : IsSurveyed c n := by
  induction n with
  -- The search does not go into most of these, and need not: they bind too tightly.
  | identifier | literal | this | array | object | function | template | unary | call | new
  | member =>
    exact isSurveyed_of_isTight (by simp [Expression.precedence, Precedence.rank]) ⟨_, rfl⟩
  | update span operator before argument =>
    cases before <;>
      exact isSurveyed_of_isTight (by simp [Expression.precedence, Precedence.rank]) ⟨_, rfl⟩
  | arrow span params body _ ih =>
    refine isSurveyed_of_row rfl fun hsearch h => ?_
    have hbody : .operator "in" ∈ (body.segments : List Segment) := by
      simpa [Segment.parameters] using h
    exact (ih hsearch hbody).of_surveyed List.mem_cons_self
  | binary span operator left right ihl ihr =>
    obtain ⟨l, r, -, -, hrow⟩ := Node.segments_binary span operator left right
    refine isSurveyed_of_row hrow fun hsearch h => ?_
    obtain ⟨⟨hoperator, hleft⟩, hright⟩ :
        (operator ≠ .in ∧ left.containsIn = false) ∧ right.containsIn = false := by
      simpa [containsIn] using hsearch
    rcases List.mem_append.mp h with h | h
    · exact (ihl hleft l h).of_surveyed (by simp [surveyed])
    · rcases List.mem_cons.mp h with h | h
      · exact absurd (BinaryOperator.eq_in_of_spelling (Segment.operator.inj h).symm) hoperator
      · exact (ihr hright r h).of_surveyed (by simp [surveyed])
  | logical span operator left right ihl ihr =>
    refine isSurveyed_of_row rfl fun hsearch h => ?_
    obtain ⟨hleft, hright⟩ : left.containsIn = false ∧ right.containsIn = false := by
      simpa [containsIn] using hsearch
    rcases List.mem_append.mp h with h | h
    · exact (ihl hleft _ h).of_surveyed (by simp [surveyed])
    · rcases List.mem_cons.mp h with h | h
      · exact absurd (Segment.operator.inj h).symm (LogicalOperator.spelling_ne_in operator)
      · exact (ihr hright _ h).of_surveyed (by simp [surveyed])
  | assignment span operator target value iht ihv =>
    refine isSurveyed_of_row rfl fun hsearch h => ?_
    rcases List.mem_append.mp h with h | h
    · exact ⟨_, .refl, .target h⟩
    · rcases List.mem_cons.mp h with h | h
      · exact absurd (Segment.operator.inj h).symm (AssignmentOperator.spelling_ne_in operator)
      · exact (ihv hsearch _ h).of_surveyed (by simp [surveyed])
  | conditional span test consequent alternate iht ihc iha =>
    refine isSurveyed_of_row rfl fun hsearch h => ?_
    obtain ⟨⟨htest, hconsequent⟩, halternate⟩ : (test.containsIn = false ∧
        consequent.containsIn = false) ∧ alternate.containsIn = false := by
      simpa [containsIn] using hsearch
    obtain h | h | h : .operator "in" ∈ test.segments .logicalOr ∨
        .operator "in" ∈ consequent.segments .assignment ∨
        .operator "in" ∈ alternate.segments .assignment := by simpa using h
    · exact (iht htest _ h).of_surveyed (by simp [surveyed])
    · exact (ihc hconsequent _ h).of_surveyed (by simp [surveyed])
    · exact (iha halternate _ h).of_surveyed (by simp [surveyed])
  | sequence span expressions ih =>
    refine isSurveyed_of_row rfl fun hsearch h => ?_
    obtain ⟨_, hmem, h⟩ := Segment.mem_of_mem_commaSeparated h
    obtain ⟨row, hrow, rfl⟩ := List.mem_map.mp hmem
    exact (ih hsearch row hrow h).of_surveyed List.mem_cons_self
  | yield span argument delegate ih =>
    refine isSurveyed_of_row rfl fun _ h => ?_
    cases argument with
    | absent => cases List.mem_singleton.mp h
    | present value =>
      have hvalue : .operator "in" ∈ .mark " " :: value.segments .assignment :=
        List.mem_of_ne_of_mem (by simp) h
      exact ⟨_, .refl, .argument (List.mem_of_ne_of_mem (by simp) hvalue)⟩
  | conciseBody value ih =>
    intro hsearch h
    change Segment.operator "in" ∈ if _ then _ else _ at h
    split at h
    · simp at h
    · exact (ih hsearch _ h).of_surveyed List.mem_cons_self
  | blockBody b =>
    intro _ h
    cases b with
    | block span body => exact absurd (List.mem_singleton.mp h) (Segment.operator_ne_blockOf _)
  | @nil item =>
    cases item with
    | expression => exact fun _ _ hrow => absurd hrow List.not_mem_nil
    | _ => trivial
  | @cons item head tail ihh iht =>
    cases item with
    | expression =>
      intro hsearch row hrow h
      obtain ⟨hhead, htail⟩ : head.containsIn = false ∧ tail.containsIn = false := by
        simpa [containsIn] using hsearch
      rcases List.mem_cons.mp hrow with rfl | hrow
      · exact (ihh hhead _ h).of_surveyed (by simp [surveyed])
      · exact (iht htail row hrow h).of_surveyed (by simp [surveyed])
    | _ => trivial
  | _ => trivial

/-- A left side shows an operator only in its default value, or behind the dots of a rest. -/
theorem isDefault_of_shows {p : Pattern} (hrest : p.isRest = false)
    (h : .operator "in" ∈ (p.segments : List Segment)) : p.isDefault = true := by
  cases p with
  | defaultPattern => rfl
  | restPattern => cases hrest
  | namePattern | arrayPattern => cases List.mem_singleton.mp h
  | objectPattern => exact absurd (List.mem_singleton.mp h) (Segment.operator_ne_braced _)
  | memberPattern span target selector computed =>
    rcases Segment.operator_mem_access h with h | h
    · exact absurd h (isTight_segments target .call (by decide))
    · exact absurd h (isTight_segments selector .primary (by decide))

theorem isDefault_of_escapes (hrest : ∀ p ∈ n.2.loneTargets, p.isRest = false)
    (h : Escapes n) : ∀ p ∈ n.2.loneTargets, p.isDefault = true := by
  intro p hp
  cases h with
  | argument => cases hp
  | target h =>
    obtain rfl := List.mem_singleton.mp hp
    exact isDefault_of_shows (hrest _ hp) h

/-- An expression that shows an `in` operator which the search for it does not find. -/
def showsUnseen : {c : Category} → Node c → Bool
  | .expression, e => !e.containsIn && (e.segments .sequence).contains (.operator "in")
  | _, _ => false

theorem of_showsUnseen {m : (c : Category) × Node c} (h : m.2.showsUnseen = true) :
    ∃ e : Expression, m = ⟨_, e⟩ ∧ e.containsIn = false ∧
      .operator "in" ∈ e.segments .sequence := by
  obtain ⟨c, n⟩ := m
  cases c with
  | expression => exact ⟨n, rfl, by simpa [showsUnseen] using h⟩
  | _ => cases h

end Node

/-- Where the search for an `in` operator finds nothing in an expression of an accepted program, but
the text of the expression shows one outside of all brackets, the operator stands in the argument of
a `yield`, or in the default value of a left side. -/
theorem escapes_of_parse {options : ParseOptions} {text : List Char} {file : File}
    {e : Expression} {floor : Precedence} (h : (parse options text).result = .ok file)
    (he : Occurs ⟨_, file.program.body⟩ ⟨_, e⟩) (hsearch : e.containsIn = false)
    (hshows : .operator "in" ∈ e.segments floor) :
    (e.segments floor).flatMap Segment.pieces = e.layout floor ∧
      ∃ x, Surveys ⟨_, e⟩ x ∧ Escapes x ∧ ∀ p ∈ x.2.loneTargets, p.isDefault = true := by
  obtain ⟨x, hsurveys, hescapes⟩ := isSurveyed e hsearch floor hshows
  have hlegal := Patterns.isPatternLegal_of_isLegal (isLegal_of_parse h)
  have hocc : Occurs ⟨_, file.program.body⟩ x := he.trans (occurs_of_surveys hsurveys)
  exact ⟨writes_segments e floor, x, hsurveys, hescapes,
    isDefault_of_escapes (fun p hp => hlegal.lone_not_rest hocc hp) hescapes⟩

/-- The argument loses its parentheses, and the head is written as `for (yield a in b;;)`. -/
theorem escapes_of_parse_yield : ∃ (file : File) (e : Expression),
    (parse {} "function* g() { for (yield (a in b);;); }".toList).result = .ok file ∧
      Occurs ⟨_, file.program.body⟩ ⟨_, e⟩ ∧ e.containsIn = false ∧
      .operator "in" ∈ e.segments .sequence ∧
      (e.segments .sequence).flatMap Segment.pieces = e.layout .sequence ∧
      ∃ x, Surveys ⟨_, e⟩ x ∧ Escapes x ∧ ∀ p ∈ x.2.loneTargets, p.isDefault = true := by
  have hany : ((parse {} "function* g() { for (yield (a in b);;); }".toList).result.toOption.any
      fun file => file.program.body.any showsUnseen) = true := by
    decide +kernel
  obtain ⟨file, m, h, he, hunseen⟩ := exists_occurs_of_parse hany
  obtain ⟨e, rfl, hsearch, hshows⟩ := of_showsUnseen hunseen
  exact ⟨file, e, h, he, hsearch, hshows, escapes_of_parse h he hsearch hshows⟩

end EcmaTree
