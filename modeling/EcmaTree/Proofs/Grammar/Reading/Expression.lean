import EcmaTree.Proofs.Grammar.Reading.Function

/-!
# What the rules for expressions have read

An expression that may still become a target hands on the first shorthand default in it.
Where a rule has two ways that differ in that default, the predicate has a constructor
for each of them.
-/

namespace EcmaTree.Reading

open EcmaTree.Parser EcmaTree.Grammar

variable {d : Descent} {s u : ParseState}

/-- How a comma expression is read. -/
inductive ExpressionWith (d : Descent) (noIn owned : Bool) (pending : Pending) (s : ParseState) :
    Expression × Pending → ParseState → Prop
  | single {e after u} (first : d (.assignment noIn owned pending) s = .ok (e, after) u)
      (last : u.kind ≠ .comma) :
      ExpressionWith d noIn owned pending s (e, after) u
  | sequence {e between s₁ rest after u}
      (first : d (.assignment noIn owned pending) s = .ok (e, between) s₁)
      (comma : s₁.kind = .comma)
      (more : d (.commaOperands noIn owned between) s₁ = .ok (rest, after) u) :
      ExpressionWith d noIn owned pending s
        (.sequence (u.spanFrom s.place) (.ofList (e :: rest)), after) u

theorem of_expressionWith {noIn owned : Bool} {pending : Pending} {r : Expression × Pending}
    (h : expressionWith d noIn owned pending s = .ok r u) :
    ExpressionWith d noIn owned pending s r u := by
  simp [expressionWith] at h
  obtain ⟨e, between, s₁, h, ⟨hk, rest, after, h', rfl⟩ | ⟨hk, rfl, rfl⟩⟩ := h
  · exact .sequence h hk h'
  · exact .single h hk

theorem of_expression {noIn : Bool} {e : Expression} (h : expression d noIn s = .ok e u) :
    ∃ after, ExpressionWith d noIn true none s (e, after) u := by
  simp [expression] at h
  obtain ⟨after, h⟩ := h
  exact ⟨after, of_expressionWith h⟩

/-- How the operands after the first one of a comma expression are read. -/
inductive CommaOperands (d : Descent) (noIn owned : Bool) (pending : Pending) (s : ParseState) :
    List Expression × Pending → ParseState → Prop
  | done (last : s.kind ≠ .comma) : CommaOperands d noIn owned pending s ([], pending) s
  | operand {s₁ e between s₂ rest after u} (comma : Takes .comma s s₁)
      (first : d (.assignment noIn owned pending) s₁ = .ok (e, between) s₂)
      (more : d (.commaOperands noIn owned between) s₂ = .ok (rest, after) u) :
      CommaOperands d noIn owned pending s (e :: rest, after) u

theorem of_commaOperands {noIn owned : Bool} {pending : Pending} {r : List Expression × Pending}
    (h : commaOperands d noIn owned pending s = .ok r u) :
    CommaOperands d noIn owned pending s r u := by
  simp [commaOperands] at h
  rcases h with ⟨⟨hk, rfl⟩, rfl⟩ | ⟨s₁, ht, e, between, s₂, h, rest, after, h', rfl⟩
  · exact .done hk
  · exact .operand ht h h'

theorem of_value {noIn : Bool} {e : Expression} (h : d.value noIn s = .ok e u) :
    ∃ after, d (.assignment noIn true none) s = .ok (e, after) u := by
  simpa [Descent.value] using h

theorem of_operand {e : Expression} (h : d.operand s = .ok e u) :
    d (.unary none) s = .ok (e, none) u := by
  simpa [Descent.operand] using h

/-- A name or a member expression. -/
def IsSimple : Expression → Prop
  | .identifier _ | .member _ _ _ _ => True
  | _ => False

theorem of_simpleTarget {e : Expression} {p : Pattern} (h : simpleTarget e s = .ok p u) :
    IsSimple e ∧ e.toPattern false = .ok p ∧ u = s := by
  unfold simpleTarget at h
  rw [run_eq_ok] at h
  obtain ⟨m, hm, h⟩ := h
  split at hm <;> subst hm <;> simp at h
  · exact ⟨trivial, h⟩
  · exact ⟨trivial, h⟩

/-- A name that is to be changed has passed the check for targets. -/
def MayChange (strict : Bool) (e : Expression) : Prop :=
  ∀ id, e = .identifier id → (Pattern.check strict false none (.namePattern id)).1 = .ok ()

theorem of_checkUpdated {e : Expression} {x : Unit} (h : checkUpdated e s = .ok x u) :
    IsSimple e ∧ MayChange s.scope.strict e ∧ u = s := by
  unfold checkUpdated at h
  rw [run_eq_ok] at h
  obtain ⟨m, hm, h⟩ := h
  split at hm <;> subst hm <;> simp at h
  · refine ⟨trivial, ?_, h.2⟩
    rintro id ⟨⟩
    exact h.1
  · exact ⟨trivial, nofun, h⟩

/-- How a `yield` is read, after which an argument may follow. -/
inductive YieldExpression (d : Descent) (noIn : Bool) (s : ParseState) :
    Expression → ParseState → Prop
  | alone {u : ParseState} (word : advance s = .ok () u) :
      YieldExpression d noIn s (.yield (u.spanFrom s.place) .absent false) u
  | argument {s₁ delegate s₂ e u} (word : advance s = .ok () s₁) (star : Eats .star delegate s₁ s₂)
      (argument : d.value noIn s₂ = .ok e u)
      (begins : s₁.kind = .star ∨ s₁.kind.startsExpression = true) :
      YieldExpression d noIn s (.yield (u.spanFrom s.place) (.present e) delegate) u

theorem of_yieldExpression {noIn : Bool} {e : Expression}
    (h : yieldExpression d noIn s = .ok e u) : YieldExpression d noIn s e u := by
  simp [yieldExpression] at h
  obtain ⟨s₁, ha, ⟨-, rfl, rfl⟩ | ⟨hgoesOn, ⟨hk, e, h, rfl⟩ | ⟨s₂, ht, e, h, rfl⟩⟩⟩ := h
  · exact .alone ha
  · exact .argument ha (.inr ⟨rfl, hk, rfl⟩) h (.inr (hgoesOn.2 hk))
  · exact .argument ha (.inl ⟨rfl, ht⟩) h (.inl ht.1)

/-- How an operator before its operand is read. -/
inductive UnaryExpression (d : Descent) (s : ParseState) : Expression → ParseState → Prop
  | update {s₁ argument u operator} (word : advance s = .ok () s₁)
      (argument_ok : d.operand s₁ = .ok argument u) (kind : s.kind = .incDec)
      (simple : IsSimple argument)
      (spelling : operatorOf UpdateOperator.ofSpelling? s.stream.token = some operator)
      (legal : MayChange u.scope.strict argument) :
      UnaryExpression d s (.update (u.spanFrom s.place) operator true argument) u
  | unary {s₁ argument u operator} (word : advance s = .ok () s₁)
      (argument_ok : d.operand s₁ = .ok argument u)
      (spelling : operatorOf UnaryOperator.ofSpelling? s.stream.token = some operator)
      (legal : operator = .delete → u.scope.strict = true → ∀ id, argument ≠ .identifier id) :
      UnaryExpression d s (.unary (u.spanFrom s.place) operator argument) u

theorem of_unaryExpression {e : Expression} (h : unaryExpression d s = .ok e u) :
    UnaryExpression d s e u := by
  simp [unaryExpression] at h
  obtain ⟨s₁, ha, argument, s₂, harg, ⟨hk, s₃, hc, h⟩ | ⟨-, h⟩⟩ := h
  · obtain ⟨hs, hlegal, rfl⟩ := of_checkUpdated hc
    rw [run_eq_ok] at h
    obtain ⟨m, hm, h⟩ := h
    split at hm <;> subst hm <;> simp at h
    rename_i ho
    obtain ⟨rfl, rfl⟩ := h
    exact .update ha harg hk hs ho hlegal
  · rw [run_eq_ok] at h
    obtain ⟨m, hm, h⟩ := h
    split at hm <;> subst hm <;> simp at h
    rename_i ho
    rw [run_eq_ok] at h
    obtain ⟨m, hm, h⟩ := h
    split at hm <;> subst hm <;> simp at h
    rename_i hname
    obtain ⟨rfl, rfl⟩ := h
    refine .unary ha harg ho ?_
    rintro rfl hstrict id rfl
    exact hname id rfl rfl hstrict

@[simp]
theorem seesTrailing_eq_ok {b : Bool} :
    seesTrailing s = .ok b u ↔ b = (s.kind.isTrailing && !s.endsStatement) ∧ u = s := by
  simp only [seesTrailing, bind_eq_ok, kind_eq_ok, canInsertSemicolon_eq_ok, pure_eq_ok,
    ↓existsAndEq, true_and]

/-- How the operator after an operand is read, if there is one. -/
inductive TrailingUpdate (start : Place) (e : Expression) (s : ParseState) :
    Expression → ParseState → Prop
  | bare (none_follows : s.kind.isTrailing = true → s.endsStatement = true) :
      TrailingUpdate start e s e s
  | update {operator u} (kind : s.kind = .incDec) (simple : IsSimple e)
      (spelling : operatorOf UpdateOperator.ofSpelling? s.stream.token = some operator)
      (word : advance s = .ok () u) (legal : MayChange s.scope.strict e) :
      TrailingUpdate start e s (.update (u.spanFrom start) operator false e) u

theorem of_trailingUpdate {start : Place} {e r : Expression}
    (h : trailingUpdate start e s = .ok r u) : TrailingUpdate start e s r u := by
  simp [trailingUpdate] at h
  rcases h with ⟨⟨hk, -⟩, s₁, hc, h⟩ | ⟨hk, rfl, rfl⟩
  · obtain ⟨hs, hlegal, rfl⟩ := of_checkUpdated hc
    rw [run_eq_ok] at h
    obtain ⟨m, hm, h⟩ := h
    split at hm <;> subst hm <;> simp at h
    rename_i ho
    obtain ⟨s₂, ha, ⟨-, hc, -⟩ | ⟨-, rfl, rfl⟩⟩ := h
    · exact (of_checkUpdated hc).1.elim
    · exact .update (by simpa [TokenKind.isTrailing] using hk) hs ho ha hlegal
  · exact .bare hk

/-- How a primary expression with its suffixes is read. -/
inductive LeftHandSide (d : Descent) (pending : Pending) (s : ParseState) :
    Expression × Pending → ParseState → Prop
  | atom {e after u} (atom_ok : d (.primary pending) s = .ok (e, after) u)
      (ends : endsOperand s.place e after = true) : LeftHandSide d pending s (e, after) u
  | suffixed {e s₁ r u} (atom_ok : d (.primary pending) s = .ok (e, none) s₁)
      (more : d (.suffixes e s.place false) s₁ = .ok r u) (plain : isArrowAt s.place e = false) :
      LeftHandSide d pending s (r, none) u

theorem of_leftHandSide {pending : Pending} {r : Expression × Pending}
    (h : leftHandSide d pending s = .ok r u) : LeftHandSide d pending s r u := by
  simp [leftHandSide] at h
  obtain ⟨e, after, s₁, h, ⟨he, rfl, rfl⟩ | ⟨he, e', h', rfl⟩⟩ := h
  · exact .atom h he
  · obtain ⟨rfl, hplain⟩ : after = none ∧ isArrowAt s.place e = false := by
      simpa [endsOperand] using he
    exact .suffixed h h' hplain

theorem LeftHandSide.run {pending : Pending} {r : Expression × Pending}
    (h : LeftHandSide d pending s r u) : leftHandSide d pending s = .ok r u := by
  cases h with
  | atom atom_ok ends => simp [leftHandSide, atom_ok, ends]
  | suffixed atom_ok more plain => simp [leftHandSide, atom_ok, endsOperand, plain, more]

/-- How an operand is read. -/
inductive Unary (d : Descent) (pending : Pending) (s : ParseState) :
    Expression × Pending → ParseState → Prop
  | operator {e u} (kind : s.kind.isUnary = true) (unary_ok : UnaryExpression d s e u) :
      Unary d pending s (e, pending) u
  | pending {e place u} (left_ok : LeftHandSide d pending s (e, some place) u) :
      Unary d pending s (e, some place) u
  | trailing {e s₁ r u} (left_ok : LeftHandSide d pending s (e, none) s₁)
      (more : TrailingUpdate s.place e s₁ r u) : Unary d pending s (r, none) u

theorem of_unary {pending : Pending} {r : Expression × Pending}
    (h : unary d pending s = .ok r u) : Unary d pending s r u := by
  simp [unary] at h
  rcases h with ⟨hk, e, h, rfl⟩ | ⟨-, e, after, s₁, h, ⟨hp, rfl, rfl⟩ | ⟨rfl, r, h', rfl⟩⟩
  · exact .operator hk (of_unaryExpression h)
  · obtain ⟨place, rfl⟩ := Option.isSome_iff_exists.mp hp
    exact .pending (of_leftHandSide h)
  · exact .trailing (of_leftHandSide h) (of_trailingUpdate h')

/-- The two operands of an operator token as one expression. -/
inductive Joined (t : Token) (span : Span) (left right : Expression) : Expression → Prop
  | logical {operator} (spelling : operatorOf LogicalOperator.ofSpelling? t = some operator) :
      Joined t span left right (.logical span operator left right)
  | binary {operator} (spelling : operatorOf BinaryOperator.ofSpelling? t = some operator) :
      Joined t span left right (.binary span operator left right)

/-- How the binary operators after an operand are read. -/
inductive Operators (d : Descent) (left : Expression) (start : Place) (floor : Nat) (noIn : Bool)
    (s : ParseState) : Expression → ParseState → Prop
  | done (none_follows : ∀ strength, s.kind.binaryStrength? = some strength →
        strength ≤ floor ∨ (noIn = true ∧ s.kind = .keyword .in)) :
      Operators d left start floor noIn s left s
  | operator {strength s₁ operand s₂ right s₃ e r u}
      (kind : s.kind.binaryStrength? = some strength) (tight : floor < strength)
      (notIn : noIn = true → s.kind ≠ .keyword .in)
      (word : advance s = .ok () s₁) (operand_ok : d.operand s₁ = .ok operand s₂)
      (right_ok : d (.operators operand s₁.place
        (if s.kind.isRightAssociative then strength - 1 else strength) noIn) s₂ = .ok right s₃)
      (joined : Joined s.stream.token (s₃.spanFrom start) left right e)
      (more : d (.operators e start floor noIn) s₃ = .ok r u) :
      Operators d left start floor noIn s r u

theorem of_operators {left : Expression} {start : Place} {floor : Nat} {noIn : Bool}
    {r : Expression} (h : operators d left start floor noIn s = .ok r u) :
    Operators d left start floor noIn s r u := by
  simp [operators] at h
  rw [run_eq_ok] at h
  obtain ⟨m, hm, h⟩ := h
  split at hm <;> subst hm <;> simp at h
  · rename_i hk
    obtain ⟨rfl, rfl⟩ := h
    exact .done (by simp [hk])
  · rename_i strength hk
    rcases h with ⟨hs, rfl, rfl⟩ | ⟨⟨ht, hn⟩, s₁, ha, operand, s₂, h, right, s₃, h', hm⟩
    · exact .done (by rintro _ hk'; rw [hk] at hk'; cases hk'; exact hs)
    · rw [run_eq_ok] at hm
      obtain ⟨m, hm, more⟩ := hm
      split at hm <;> subst hm
      · rename_i ho
        exact .operator hk ht hn ha h h' (.logical ho) more
      · rename_i ho
        exact .operator hk ht hn ha h h' (.binary ho) more
      · simp at more

/-- How an expression without its conditional part is read. -/
inductive Binary (d : Descent) (noIn : Bool) (pending : Pending) (s : ParseState) :
    Expression × Pending → ParseState → Prop
  | operand {e after u} (first : d (.unary pending) s = .ok (e, after) u)
      (ends : endsOperand s.place e after = true) : Binary d noIn pending s (e, after) u
  | operators {e s₁ r u} (first : d (.unary pending) s = .ok (e, none) s₁)
      (more : d (.operators e s.place 0 noIn) s₁ = .ok r u) : Binary d noIn pending s (r, none) u

theorem of_binary {noIn : Bool} {pending : Pending} {r : Expression × Pending}
    (h : binary d noIn pending s = .ok r u) : Binary d noIn pending s r u := by
  simp [binary] at h
  obtain ⟨e, after, s₁, h, ⟨he, rfl, rfl⟩ | ⟨he, e', h', rfl⟩⟩ := h
  · exact .operand h he
  · obtain rfl : after = none := by simp [endsOperand] at he; exact he.1
    exact .operators h h'

/-- How an expression without its assignment is read. -/
inductive Conditional (d : Descent) (noIn : Bool) (pending : Pending) (s : ParseState) :
    Expression × Pending → ParseState → Prop
  | plain {e after u} (test_ok : Binary d noIn pending s (e, after) u)
      (ends : endsOperand s.place e after = true ∨ u.kind ≠ .question) :
      Conditional d noIn pending s (e, after) u
  | choice {test s₁ s₂ consequent s₃ s₄ alternate u}
      (test_ok : Binary d noIn pending s (test, none) s₁) (question : Takes .question s₁ s₂)
      (consequent_ok : d.value false s₂ = .ok consequent s₃) (colon : Takes .colon s₃ s₄)
      (alternate_ok : d.value noIn s₄ = .ok alternate u) :
      Conditional d noIn pending s
        (.conditional (u.spanFrom s.place) test consequent alternate, none) u

theorem of_conditional {noIn : Bool} {pending : Pending} {r : Expression × Pending}
    (h : conditional d noIn pending s = .ok r u) : Conditional d noIn pending s r u := by
  simp [conditional] at h
  obtain ⟨test, after, s₁, h, ⟨he, rfl, rfl⟩ | ⟨he, hq⟩⟩ := h
  · exact .plain (of_binary h) (.inl he)
  rcases hq with ⟨⟨hk, rfl⟩, rfl⟩ | ⟨s₂, ht, consequent, s₃, hc, s₄, ht', alternate, ha, rfl⟩
  · exact .plain (of_binary h) (.inr hk)
  · obtain rfl : after = none := by simp [endsOperand] at he; exact he.1
    exact .choice (of_binary h) ht hc ht' ha

/-- How an expression without a comma is read. -/
inductive Assignment (d : Descent) (noIn owned : Bool) (outer : Pending) (s : ParseState) :
    Expression × Pending → ParseState → Prop
  | yield {e u} (scope : s.scope.inGenerator = true) (word : s.isWord "yield" = true)
      (yield_ok : YieldExpression d noIn s e u) : Assignment d noIn owned outer s (e, outer) u
  | plain {e after u}
      (left_ok : conditional d noIn (if owned then none else outer) s.markArrow =
        .ok (e, after) u)
      (last : u.kind.isAssignment = false) (settled : owned = true → after = none) :
      Assignment d noIn owned outer s (e, after) u
  | assign {left pending s₁ operator target s₂ value u}
      (left_ok : conditional d noIn (if owned then none else outer) s.markArrow =
        .ok (left, pending) s₁)
      (kind : s₁.kind.isAssignment = true)
      (spelling : operatorOf AssignmentOperator.ofSpelling? s₁.stream.token = some operator)
      (simple : operator ≠ .assign → IsSimple left)
      (target_ok : left.toPattern false = .ok target)
      (legal : (Pattern.check s₁.scope.strict false none target).1 = .ok ())
      (word : advance s₁ = .ok () s₂) (value_ok : d.value noIn s₂ = .ok value u) :
      Assignment d noIn owned outer s
        (.assignment (u.spanFrom s.place) operator target value,
          if owned then none
          else pending.filter fun place => place.offset < left.span.start.offset) u

theorem of_assignment {noIn owned : Bool} {outer : Pending} {r : Expression × Pending}
    (h : assignment d noIn owned outer s = .ok r u) : Assignment d noIn owned outer s r u := by
  simp only [assignment, ite_bind, when_bind] at h
  simp at h
  rcases h with ⟨⟨hg, hw⟩, e, h, rfl⟩ | ⟨-, s₁, hm, left, pending, s₂, h, hr⟩
  · exact .yield hg hw (of_yieldExpression h)
  obtain rfl : s₁ = s.markArrow := by
    unfold ParseState.markArrow
    grind
  clear hm
  rcases hr with ⟨hk, hr⟩ | ⟨hk, hr, rfl⟩
  · rw [run_eq_ok] at hr
    obtain ⟨m, hm, hr⟩ := hr
    split at hm <;> subst hm <;> simp at hr
    rename_i operator ho
    obtain ⟨target, s₃, ht, ⟨hc, s₄, ha, value, hv, rfl⟩⟩ := hr
    obtain ⟨hs, hp, rfl⟩ : (operator ≠ .assign → IsSimple left) ∧
        left.toPattern false = .ok target ∧ s₃ = s₂ := by
      rcases ht with ⟨heq, hp, rfl⟩ | ⟨-, ht⟩
      · exact ⟨fun h => absurd heq h, hp, rfl⟩
      · obtain ⟨hs, hp, rfl⟩ := of_simpleTarget ht
        exact ⟨fun _ => hs, hp, rfl⟩
    exact .assign h hk ho hs hp hc ha hv
  · rcases hr with ⟨rfl, rfl, rfl⟩ | ⟨rfl, rfl⟩
    · exact .plain h hk fun _ => rfl
    · exact .plain h hk nofun

end EcmaTree.Reading
