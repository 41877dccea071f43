import EcmaTree.Proofs.Grammar.Agreement.Binding

/-!
# Agreement of the rules for expressions

What begins at the same token is passed from an assignment down to a primary expression.
Suffixes, operators and the items of lists come after a token or have the lowest rank. Where a
rule compares places, it compares the starts of tokens, which have the same order on both
sides.
-/

namespace EcmaTree.Agreement

open EcmaTree.Parser EcmaTree.Grammar EcmaTree.Reading EcmaTree.Trail ParseState

variable {L : Likeness} {d d' : Descent} {m : Nat} {s : ParseState}

section Places

variable {K : Correspondence} {start start' : Place} {e e' : Expression}
  {pending pending' : Pending}

/-- Arrow functions that are alike begin where a rule began, or neither does. -/
theorem isArrowAt_eq (hs : K.Start start start') (he : K.Nodes e e') :
    isArrowAt start' e' = isArrowAt start e := by
  cases he with
  | arrow hsp _ _ =>
    have hiff := Correspondence.offset_eq_iff hsp.start hs
    unfold isArrowAt
    rw [Bool.eq_iff_iff, beq_iff_eq, beq_iff_eq]
    exact hiff
  | _ => rfl

theorem isSome_eq_of_pendings (h : K.Pendings pending pending') :
    pending'.isSome = pending.isSome := by
  cases h <;> rfl

theorem endsOperand_eq (hs : K.Start start start') (he : K.Nodes e e')
    (hp : K.Pendings pending pending') :
    endsOperand start' e' pending' = endsOperand start e pending := by
  unfold endsOperand
  rw [isArrowAt_eq hs he, isSome_eq_of_pendings hp]

theorem pendings_record (hp : K.Pendings pending pending') (hs : K.Start start start') :
    K.Pendings (pending.record start) (pending'.record start') := by
  cases hp with
  | none => exact .some hs
  | some hfirst => exact .some hfirst

/-- An assignment takes up the defaults that lie in its target. -/
theorem pendings_filter (hp : K.Pendings pending pending') (he : K.Nodes e e') :
    K.Pendings (pending.filter fun place => place.offset < e.span.start.offset)
      (pending'.filter fun place => place.offset < e'.span.start.offset) := by
  cases hp with
  | none => exact .none
  | @some p p' hplace =>
    have hspan := he.span trivial
    have hiff := K.lt_iff hplace hspan.start
    by_cases hlt : p.offset < e.span.start.offset
    · have hlt' : p'.offset < e'.span.start.offset := hiff.mpr hlt
      simpa [Option.filter, hlt, hlt'] using Option.Rel.some hplace
    · have hlt' : ¬p'.offset < e'.span.start.offset := fun h => hlt (hiff.mp h)
      simp [Option.filter, hlt, hlt']

theorem pendings_own {owned : Bool} (hp : K.Pendings pending pending') :
    K.Pendings (if owned then none else pending) (if owned then none else pending') := by
  cases owned with
  | true => exact .none
  | false => exact hp

theorem operatorOf_eq {α : Type} {ofSpelling? : String → Option α} {t t' : Token}
    (h : t.Alike K t') : operatorOf ofSpelling? t' = operatorOf ofSpelling? t := by
  unfold operatorOf
  rw [h.value_eq]

theorem expressionsOf_alike {items items' : List Element}
    (h : List.Forall₂ K.Nodes items items') :
    List.Forall₂ K.Nodes (expressionsOf items) (expressionsOf items') := by
  unfold expressionsOf
  induction h with
  | nil => exact .nil
  | cons hitem _ ih =>
    cases hitem with
    | item hvalue => exact .cons hvalue ih
    | spread | rest => exact ih

/-- The rest that ends a list lies at corresponding places. -/
theorem restAtEnd?_alike {items items' : List Element}
    (h : List.Forall₂ K.Nodes items items') :
    Option.Rel K.Spans (restAtEnd? items) (restAtEnd? items') := by
  unfold restAtEnd?
  have hlast : Option.Rel K.Nodes items.getLast? items'.getLast? := by
    rw [List.getLast?_eq_head?_reverse, List.getLast?_eq_head?_reverse]
    have hreverse := List.rel_reverse h
    revert hreverse
    generalize items.reverse = reversed
    generalize items'.reverse = reversed'
    rintro (_ | ⟨hhead, _⟩)
    · exact .none
    · exact .some hhead
  revert hlast
  generalize items.getLast? = last
  generalize items'.getLast? = last'
  rintro (hlast | _)
  · cases hlast with
    | rest hsp _ => exact .some hsp
    | item | spread => exact .none
  · exact .none

end Places

theorem agrees_simpleTarget {e e' : Expression} (he : L.Nodes e e') :
    Agrees L L.Nodes (simpleTarget e) (simpleTarget e') s := by
  have hspan := he.span trivial
  have hpattern := he.convert false
  unfold simpleTarget
  cases he with
  | identifier | member => exact agrees_lift hpattern
  | _ => exact agrees_fail (L.stop_of_start hspan.start)

theorem agrees_checkUpdated {e e' : Expression} (he : L.Nodes e e') :
    Agrees L Eq (checkUpdated e) (checkUpdated e') s := by
  have hspan := he.span trivial
  unfold checkUpdated
  cases he with
  | identifier hid => exact agrees_checkTarget (.namePattern hid)
  | member => exact agrees_pure rfl
  | _ => exact agrees_fail (L.stop_of_start hspan.start)

theorem agrees_seesTrailing : Agrees L Eq seesTrailing seesTrailing s :=
  .kind (.canInsertSemicolon (agrees_pure rfl))

theorem agrees_trailingUpdate {start start' : Place} {e e' : Expression}
    (hstart : L.Start start start') (he : L.Nodes e e') :
    Agrees L L.Nodes (trailingUpdate start e) (trailingUpdate start' e') s := by
  unfold trailingUpdate
  refine agrees_seesTrailing.bind ?_
  rintro trailing _ t rfl hsees
  obtain ⟨rfl, rfl⟩ := seesTrailing_eq_ok.mp hsees
  apply Agrees.ite
  · intro hc
    rw [Bool.and_eq_true] at hc
    have hk : t.kind ≠ .eof := by
      rintro heof
      simp [heof, TokenKind.isTrailing] at hc
    refine (agrees_checkUpdated he).seq fun t hcheck => ?_
    obtain ⟨-, -, rfl⟩ := of_checkUpdated hcheck
    apply Agrees.token
    intro token htoken
    rw [operatorOf_eq htoken]
    split
    · rename_i operator _
      apply Agrees.advance hk
      intro t _ _
      refine .finish hstart fun sp sp' hsp => ?_
      have hupdated : L.Nodes (.update sp operator false e) (.update sp' operator false e') :=
        .update hsp he
      refine agrees_seesTrailing.bind ?_
      rintro trailing _ u rfl _
      apply Agrees.ite
      · intro _
        exact (agrees_checkUpdated hupdated).seq fun _ _ => agrees_pure hupdated
      · intro _
        exact agrees_pure hupdated
    · exact agrees_unexpected
  · intro _
    exact agrees_pure he

/-- Where the left side does not come to arrow parameters but reads the list as expressions, the
right side does not come to arrow parameters either. -/
def Rereads (L : Likeness) (d d' : Descent) (s : ParseState) : Prop :=
  L.Lenient → ∀ {s' e u}, L.Alike s s' → ParenthesizedExpression d s.place true s e u →
    (∃ stop t, arrowParameters d s = .error stop t) →
      ∃ fault t', arrowParameters d' s' = .error (.fault fault) t'

theorem rereads_of_not (hn : ¬L.Lenient) : Rereads L d d' s :=
  fun lenient => absurd lenient hn

section Rules

/- Answers follow their token streams, and on goals worth less than `m` the descents agree. -/
variable (ht : ∀ g s r u, d g s = .ok r u → g.IsBounded → g.Traces s u)
  (hd : ∀ {g g' : Goal} {R : g.Result → g'.Result → Prop} {s : ParseState},
    Goal.Alike L.toCorrespondence g g' R → 8 * s.unread + g.rank < m →
      Agrees L R (d g) (d' g') s)

include hd ht

theorem agrees_expressionWith {noIn owned : Bool} {pending pending' : Pending}
    (hp : L.Pendings pending pending') (h : 8 * s.unread + 2 < m) :
    Agrees L (L.Readings L.Nodes) (expressionWith d noIn owned pending)
      (expressionWith d' noIn owned pending') s := by
  unfold expressionWith
  apply Agrees.here
  intro start hstart
  refine (hd (.assignment hp) h).bind ?_
  rintro ⟨first, after⟩ ⟨first', after'⟩ s₁ ⟨hfirst, hafter⟩ hrun
  have hle := unread_le_of_follows (follows_of_goal ht hrun trivial)
  apply Agrees.seesElse
  · intro _
    refine (hd (.commaOperands hafter) (show 8 * s₁.unread + 0 < m by omega)).bind ?_
    rintro _ _ t ⟨hrest, hlast⟩ _
    refine .finish hstart fun sp sp' hsp => ?_
    exact agrees_pure ⟨.sequence hsp (Node.alike_ofList (.cons hfirst hrest)), hlast⟩
  · intro _
    exact agrees_pure ⟨hfirst, hafter⟩

theorem agrees_expression {noIn : Bool} (h : 8 * s.unread + 2 < m) :
    Agrees L L.Nodes (expression d noIn) (expression d' noIn) s := by
  refine (agrees_expressionWith ht hd .none h).bind ?_
  rintro _ _ t ⟨he, _⟩ _
  exact agrees_pure he

theorem agrees_commaOperands {noIn owned : Bool} {pending pending' : Pending}
    (hp : L.Pendings pending pending') (h : 8 * s.unread ≤ m) :
    Agrees L (L.Readings (List.Forall₂ L.Nodes)) (commaOperands d noIn owned pending)
      (commaOperands d' noIn owned pending') s := by
  unfold commaOperands
  apply Agrees.eatElse (by decide)
  · intro s₁ _ hlt
    refine (agrees_goal hd (.assignment hp) (by omega)).bind ?_
    rintro ⟨first, after⟩ ⟨first', after'⟩ s₂ ⟨hfirst, hafter⟩ hrun
    have hle := unread_le_of_follows (follows_of_goal ht hrun trivial)
    refine (agrees_goal hd (.commaOperands hafter) (by omega)).bind ?_
    rintro _ _ t ⟨hrest, hlast⟩ _
    exact agrees_pure ⟨.cons hfirst hrest, hlast⟩
  · intro _
    exact agrees_pure ⟨.nil, hp⟩

omit ht in
theorem agrees_yieldExpression {noIn : Bool} (hk : s.kind ≠ .eof) (h : 8 * s.unread ≤ m) :
    Agrees L L.Nodes (yieldExpression d noIn) (yieldExpression d' noIn) s := by
  unfold yieldExpression
  apply Agrees.here
  intro start hstart
  apply Agrees.advance hk
  intro s₁ _ hlt
  apply Agrees.kind
  apply Agrees.canInsertSemicolon
  apply Agrees.ite
  · intro _
    exact .finish hstart fun sp sp' hsp => agrees_pure (.yield hsp .absent)
  · intro _
    refine (Agrees.eat_self (by decide)).bind ?_
    rintro delegate _ s₂ rfl hstar
    have hle := unread_le_of_follows (follows_of_eats (eat_eq_ok.mp hstar) (by decide))
    refine (agrees_value hd (by omega)).bind fun argument argument' t hargument _ => ?_
    exact .finish hstart fun sp sp' hsp => agrees_pure (.yield hsp (.present hargument))

omit ht in
theorem agrees_unaryExpression (hk : s.kind ≠ .eof) (h : 8 * s.unread ≤ m) :
    Agrees L L.Nodes (unaryExpression d) (unaryExpression d') s := by
  unfold unaryExpression
  apply Agrees.here
  intro start hstart
  apply Agrees.token
  intro token htoken
  rw [htoken.kind_eq, operatorOf_eq htoken, operatorOf_eq htoken]
  apply Agrees.advance hk
  intro s₁ _ hlt
  refine (agrees_operand hd (by omega)).bind fun argument argument' s₂ hargument _ => ?_
  apply Agrees.ite
  · intro _
    refine (agrees_checkUpdated hargument).seq fun _ _ => ?_
    split
    · exact .finish hstart fun sp sp' hsp => agrees_pure (.update hsp hargument)
    · exact agrees_unexpected
  · intro _
    split
    · rename_i operator _
      have hunary : Agrees L L.Nodes
          (do return .unary (← finish s.place) operator argument)
          (do return .unary (← finish start) operator argument') s₂ :=
        .finish hstart fun sp sp' hsp => agrees_pure (.unary hsp hargument)
      apply Agrees.strict
      intro strict strict' hstrict
      split
      · cases hargument with
        | identifier =>
          cases hstrict with
          | same => exact agrees_fail (L.stop_of_start hstart)
          | dropped lenient => exact fun _ _ => .stopped lenient
      · rename_i hno
        split
        · cases hargument with
          | identifier => cases hstrict with | same => exact (hno _ rfl rfl rfl).elim
        · exact hunary
    · exact agrees_fail (L.stop_of_start hstart)

theorem agrees_leftHandSide {pending pending' : Pending} (hp : L.Pendings pending pending')
    (h : 8 * s.unread < m) :
    Agrees L (L.Readings L.Nodes) (leftHandSide d pending) (leftHandSide d' pending') s := by
  unfold leftHandSide
  apply Agrees.here
  intro start hstart
  refine (hd (.primary hp) (show 8 * s.unread + 0 < m by omega)).bind ?_
  rintro ⟨e, after⟩ ⟨e', after'⟩ s₁ ⟨he, hafter⟩ hrun
  have hle := unread_le_of_follows (follows_of_goal ht hrun trivial)
  dsimp only
  rw [endsOperand_eq hstart he hafter]
  apply Agrees.ite
  · intro _
    exact agrees_pure ⟨he, hafter⟩
  · intro _
    refine (hd (.suffixes he hstart) (show 8 * s₁.unread + 0 < m by omega)).bind ?_
    intro r r' t hr _
    exact agrees_pure ⟨hr, hafter⟩

theorem agrees_unary {pending pending' : Pending} (hp : L.Pendings pending pending')
    (h : 8 * s.unread < m) :
    Agrees L (L.Readings L.Nodes) (unary d pending) (unary d' pending') s := by
  unfold unary
  apply Agrees.here
  intro start hstart
  apply Agrees.kind
  apply Agrees.ite
  · intro hk
    have hk : s.kind ≠ .eof := by
      rintro heof
      simp [heof, TokenKind.isUnary] at hk
    refine (agrees_unaryExpression hd hk (by omega)).bind fun e e' t he _ => ?_
    exact agrees_pure ⟨he, hp⟩
  · intro _
    refine (agrees_leftHandSide ht hd hp h).bind ?_
    rintro ⟨e, after⟩ ⟨e', after'⟩ t ⟨he, hafter⟩ _
    dsimp only
    rw [isSome_eq_of_pendings hafter]
    apply Agrees.ite
    · intro _
      exact agrees_pure ⟨he, hafter⟩
    · intro _
      exact (agrees_trailingUpdate hstart he).bind fun _ _ _ hr _ => agrees_pure ⟨hr, hafter⟩

theorem agrees_operators {left left' : Expression} {start start' : Place} {floor : Nat}
    {noIn : Bool} (hleft : L.Nodes left left') (hstart : L.Start start start')
    (h : 8 * s.unread ≤ m) :
    Agrees L L.Nodes (operators d left start floor noIn) (operators d' left' start' floor noIn)
      s := by
  unfold operators
  apply Agrees.token
  intro token htoken
  rw [htoken.kind_eq, operatorOf_eq htoken, operatorOf_eq htoken]
  split
  · exact agrees_pure hleft
  · rename_i strength hk
    have hk : s.kind ≠ .eof := by
      rintro heof
      simp [heof, TokenKind.binaryStrength?] at hk
    apply Agrees.ite
    · intro _
      exact agrees_pure hleft
    intro _
    apply Agrees.advance hk
    intro s₁ _ hlt
    apply Agrees.here
    intro operandStart hoperandStart
    refine (agrees_operand hd (by omega)).bind fun operand operand' s₂ hoperand ho => ?_
    have h₂ := unread_le_of_follows (follows_of_operand ht ho)
    refine (agrees_goal hd (.operators hoperand hoperandStart) (by omega)).bind ?_
    intro right right' s₃ hright hr
    have h₃ := unread_le_of_follows (follows_of_goal ht hr trivial)
    refine .finish hstart fun sp sp' hsp => ?_
    split
    · exact agrees_goal hd (.operators (.logical hsp hleft hright) hstart) (by omega)
    · exact agrees_goal hd (.operators (.binary hsp hleft hright) hstart) (by omega)
    · exact agrees_fail (L.stop_of_start hstart)

theorem agrees_binary {noIn : Bool} {pending pending' : Pending}
    (hp : L.Pendings pending pending') (h : 8 * s.unread + 1 < m) :
    Agrees L (L.Readings L.Nodes) (binary d noIn pending) (binary d' noIn pending') s := by
  unfold binary
  apply Agrees.here
  intro start hstart
  refine (hd (.unary hp) h).bind ?_
  rintro ⟨e, after⟩ ⟨e', after'⟩ s₁ ⟨he, hafter⟩ hrun
  have hle := unread_le_of_follows (follows_of_goal ht hrun trivial)
  dsimp only
  rw [endsOperand_eq hstart he hafter]
  apply Agrees.ite
  · intro _
    exact agrees_pure ⟨he, hafter⟩
  · intro _
    refine (hd (.operators he hstart) (show 8 * s₁.unread + 0 < m by omega)).bind ?_
    intro r r' t hr _
    exact agrees_pure ⟨hr, hafter⟩

theorem agrees_conditional {noIn : Bool} {pending pending' : Pending}
    (hp : L.Pendings pending pending') (h : 8 * s.unread + 1 < m) :
    Agrees L (L.Readings L.Nodes) (conditional d noIn pending) (conditional d' noIn pending')
      s := by
  unfold conditional
  apply Agrees.here
  intro start hstart
  refine (agrees_binary ht hd hp h).bind ?_
  rintro ⟨test, after⟩ ⟨test', after'⟩ s₁ ⟨htest, hafter⟩ hrun
  have h₁ := unread_le_of_follows (follows_of_binary ht (of_binary hrun))
  dsimp only
  rw [endsOperand_eq hstart htest hafter]
  apply Agrees.ite
  · intro _
    exact agrees_pure ⟨htest, hafter⟩
  intro _
  apply Agrees.eatElse (by decide)
  · intro s₂ _ hlt
    refine (agrees_value hd (by omega)).bind fun consequent consequent' s₃ hconsequent hc => ?_
    have h₃ := unread_le_of_follows (follows_of_value ht hc)
    apply Agrees.expect (by decide)
    intro s₄ _ hlt'
    refine (agrees_value hd (by omega)).bind fun alternate alternate' t halternate _ => ?_
    refine .finish hstart fun sp sp' hsp => ?_
    exact agrees_pure ⟨.conditional hsp htest hconsequent halternate, hafter⟩
  · intro _
    exact agrees_pure ⟨htest, hafter⟩

omit ht hd in
/-- An arrow function may begin at the current token. -/
theorem agrees_markIf {mayBegin : Bool} {start : Place} (hstart : L.Start s.place start) :
    Agrees L Eq
      (if mayBegin = true then modify fun t => { t with arrowStart := some s.place.offset }
        else pure ())
      (if mayBegin = true then modify fun t => { t with arrowStart := some start.offset }
        else pure ()) s := by
  apply Agrees.ite
  · intro _
    refine agrees_modify fun _ ha => ?_
    rw [L.offset_eq ha hstart]
    exact L.mark ha
  · intro _
    exact agrees_pure rfl

omit ht hd in
/-- What stands before an assignment operator becomes its target. -/
theorem agrees_targetOf {operator : AssignmentOperator} {left left' : Expression}
    (hleft : L.Nodes left left') :
    Agrees L L.Nodes
      (if (operator == .assign) = true then lift (left.toPattern false) else simpleTarget left)
      (if (operator == .assign) = true then lift (left'.toPattern false) else simpleTarget left')
      s := by
  apply Agrees.ite
  · intro _
    exact agrees_lift (hleft.convert false)
  · intro _
    exact agrees_simpleTarget hleft

omit ht hd in
theorem agrees_refuseIf {owned : Bool} {pending pending' : Pending}
    (hp : L.Pendings pending pending') :
    Agrees L Eq (if owned = true then pending.refuse else pure ())
      (if owned = true then pending'.refuse else pure ()) s := by
  apply Agrees.ite
  · intro _
    exact agrees_refuse hp
  · intro _
    exact agrees_pure rfl

/-- An assignment begins where an arrow function may begin. What comes before `=` is converted
to a target and takes up the defaults that are pending in it. -/
theorem agrees_assignment {noIn owned : Bool} {outer outer' : Pending}
    (hp : L.Pendings outer outer') (h : 8 * s.unread + 1 < m) :
    Agrees L (L.Readings L.Nodes) (assignment d noIn owned outer)
      (assignment d' noIn owned outer') s := by
  simp only [assignment, ite_bind, when_bind]
  apply Agrees.get
  intro s' hs
  rw [(L.scope hs).inGenerator_eq]
  apply Agrees.isContextual
  apply Agrees.ite
  · intro hw
    have hk : s.kind ≠ .eof := by
      rintro heof
      simp [ParseState.isWord, heof] at hw
    refine (agrees_yieldExpression hd hk (by omega)).bind fun e e' t he _ => ?_
    exact agrees_pure ⟨he, hp⟩
  intro _
  apply Agrees.here
  intro start hstart
  apply Agrees.kind
  refine (agrees_markIf hstart).seq fun s₁ hmarked => ?_
  have h₁ : s₁.unread = s.unread := by
    split at hmarked
    · rw [modify_eq_ok.mp hmarked]
    · rw [(pure_eq_ok.mp hmarked).2]
  refine (agrees_conditional ht hd (pendings_own hp) (by omega)).bind ?_
  rintro ⟨left, after⟩ ⟨left', after'⟩ s₂ ⟨hleft, hafter⟩ hrun
  have h₂ := unread_le_of_follows (follows_of_conditional ht (of_conditional hrun))
  apply Agrees.kind
  apply Agrees.ite
  · intro hk
    have hk : s₂.kind ≠ .eof := by
      rintro heof
      simp [heof, TokenKind.isAssignment] at hk
    apply Agrees.token
    intro token htoken
    rw [operatorOf_eq htoken]
    split
    · exact agrees_unexpected
    · refine (agrees_targetOf hleft).bind fun target target' s₃ htarget hrun => ?_
      obtain rfl : s₃ = s₂ := by
        split at hrun
        · exact (lift_eq_ok.mp hrun).2
        · exact (of_simpleTarget hrun).2.2
      refine (agrees_checkTarget htarget).seq fun s₄ hcheck => ?_
      obtain ⟨-, rfl⟩ := checkTarget_eq_ok.mp hcheck
      apply Agrees.advance hk
      intro s₅ _ hlt
      refine (agrees_value hd (by omega)).bind fun value value' t hvalue _ => ?_
      refine .finish hstart fun sp sp' hsp => ?_
      exact agrees_pure ⟨.assignment hsp htarget hvalue,
        pendings_own (pendings_filter hafter hleft)⟩
  · intro _
    exact (agrees_refuseIf hafter).seq fun _ _ => agrees_pure ⟨hleft, pendings_own hafter⟩

omit ht in
theorem agrees_callArguments (h : 8 * s.unread + 3 < m) :
    Agrees L L.Nodes (suffixes.callArguments d) (suffixes.callArguments d') s := by
  unfold suffixes.callArguments
  refine (hd (.elements (by decide) .none) h).bind ?_
  rintro _ _ t ⟨helements, hp⟩ _
  refine (agrees_refuse hp).seq fun _ _ => ?_
  exact agrees_pure (Node.alike_ofList (forall₂_reduceOption helements))

theorem agrees_suffixes {base base' : Expression} {start start' : Place} {noCalls : Bool}
    (hbase : L.Nodes base base') (hstart : L.Start start start') (h : 8 * s.unread ≤ m) :
    Agrees L L.Nodes (suffixes d base start noCalls) (suffixes d' base' start' noCalls) s := by
  simp only [suffixes, ite_bind]
  apply Agrees.eatElse (by decide)
  · intro s₁ _ hlt
    refine agrees_identifier.bind fun name name' s₂ hname hn => ?_
    have hle := unread_le_of_follows (follows_of_identifier hn)
    refine .finish hstart fun sp sp' hsp => ?_
    exact agrees_goal hd (.suffixes (.member hsp hbase (.identifier hname)) hstart) (by omega)
  intro _
  apply Agrees.eatElse (by decide)
  · intro s₁ _ hlt
    refine (agrees_expression ht hd (by omega)).bind fun prop prop' s₂ hprop hrun => ?_
    have hle := unread_le_of_follows (follows_of_expression ht hrun)
    apply Agrees.expect (by decide)
    intro s₃ _ hlt'
    refine .finish hstart fun sp sp' hsp => ?_
    exact agrees_goal hd (.suffixes (.member hsp hbase hprop) hstart) (by omega)
  intro _
  cases noCalls with
  | true => exact agrees_pure hbase
  | false =>
    apply Agrees.eatElse (by decide)
    · intro s₁ _ hlt
      refine (agrees_callArguments hd (by omega)).bind fun arguments arguments' s₂ hargs hrun => ?_
      have hle := unread_le_of_follows (follows_of_callArguments ht hrun)
      refine .finish hstart fun sp sp' hsp => ?_
      exact agrees_goal hd (.suffixes (.call hsp hbase hargs) hstart) (by omega)
    · intro _
      exact agrees_pure hbase

omit ht in
theorem agrees_spread {pending pending' : Pending} (hp : L.Pendings pending pending')
    (hk : s.kind ≠ .eof) (h : 8 * s.unread ≤ m) :
    Agrees L (L.Readings (Prod.RProd L.Spans L.Nodes)) (spread d pending) (spread d' pending')
      s := by
  unfold spread
  apply Agrees.here
  intro start hstart
  apply Agrees.advance hk
  intro s₁ _ hlt
  refine (agrees_goal hd (.assignment hp) (by omega)).bind ?_
  rintro _ _ t ⟨hargument, hafter⟩ _
  exact .finish hstart fun sp sp' hsp => agrees_pure ⟨⟨hsp, hargument⟩, hafter⟩

omit ht in
theorem agrees_element {holes : Bool} {pending pending' : Pending}
    (hp : L.Pendings pending pending') (h : 8 * s.unread + 2 < m) :
    Agrees L (L.Readings (Option.Rel L.Nodes)) (elements.element d holes pending)
      (elements.element d' holes pending') s := by
  simp only [elements.element, ite_bind]
  apply Agrees.seesIf
  intro isHole
  apply Agrees.ite
  · intro _
    exact agrees_pure ⟨.none, hp⟩
  intro _
  apply Agrees.seesElse
  · intro hk
    refine (agrees_spread hd hp (by simp [hk]) (by omega)).bind ?_
    rintro _ _ t ⟨⟨hsp, hargument⟩, hafter⟩ _
    exact agrees_pure ⟨.some (.spread hsp hargument), hafter⟩
  · intro _
    refine (hd (.assignment hp) h).bind ?_
    rintro _ _ t ⟨hvalue, hafter⟩ _
    exact agrees_pure ⟨.some (.item hvalue), hafter⟩

theorem agrees_elements {stop : TokenKind} {trailingComma holes isFirst : Bool}
    {pending pending' : Pending} (hstop : stop ≠ .eof) (hp : L.Pendings pending pending')
    (h : 8 * s.unread + (if isFirst then 3 else 0) ≤ m) :
    Agrees L (L.Readings (List.Forall₂ (Option.Rel L.Nodes)))
      (elements d stop trailingComma holes isFirst pending)
      (elements d' stop trailingComma holes isFirst pending') s := by
  simp only [elements, ite_bind, unless_bind]
  apply Agrees.closing (.inl rfl) hstop (fun _ => agrees_pure ⟨.nil, hp⟩)
  apply Agrees.separator
  intro s₁ hsep
  have h₁ : 8 * s₁.unread + 3 ≤ m := room_of_separator h (by decide) hsep
  refine .closing (k := stop) ?_ hstop (fun _ => agrees_pure ⟨.nil, hp⟩) ?_
  · split
    · exact .inl rfl
    · exact .inr rfl
  refine (agrees_element hd hp (by omega)).bind ?_
  rintro ⟨item, after⟩ ⟨item', after'⟩ s₂ ⟨hitem, hafter⟩ hrun
  have hle := unread_le_of_follows (follows_of_listElement ht (of_element hrun))
  refine (hd (.elements hstop hafter) (show 8 * s₂.unread + 0 < m by omega)).bind ?_
  rintro _ _ t ⟨hrest, hlast⟩ _
  exact agrees_pure ⟨.cons hitem hrest, hlast⟩

omit ht in
theorem agrees_arrowParameters (h : 8 * s.unread ≤ m) :
    Agrees L (List.Forall₂ L.Nodes) (arrowParameters d) (arrowParameters d') s := by
  unfold arrowParameters
  apply Agrees.expect (by decide)
  intro s₁ _ hlt
  refine (agrees_parameters hd (by omega)).bind fun params params' t hparams _ => ?_
  apply Agrees.canInsertSemicolon
  apply Agrees.kind
  apply Agrees.ite
  · intro _
    exact agrees_unexpected.seq fun _ h => (unexpected_ne_ok h).elim
  · intro _
    exact agrees_pure hparams

theorem agrees_parenthesized {isFirst : Bool} {pending pending' : Pending}
    (hp : L.Pendings pending pending') (h : 8 * s.unread + (if isFirst then 3 else 0) ≤ m) :
    Agrees L (L.Readings (List.Forall₂ L.Nodes)) (parenthesized d isFirst pending)
      (parenthesized d' isFirst pending') s := by
  unfold parenthesized
  apply Agrees.seesElse
  · intro _
    exact agrees_pure ⟨.nil, hp⟩
  intro _
  extract_lets item item'
  have hitem : ∀ {t : ParseState}, 8 * t.unread + 3 ≤ m →
      Agrees L (L.Readings (List.Forall₂ L.Nodes)) (item ()) (item' ()) t := by
    intro t h
    apply Agrees.seesElse
    · intro hk
      refine (agrees_restOfBinding hk).bind ?_
      rintro _ _ u ⟨hsp, hargument⟩ _
      exact agrees_pure ⟨.cons (.rest hsp hargument) .nil, hp⟩
    · intro _
      refine (hd (.assignment hp) (show 8 * t.unread + 2 < m by omega)).bind ?_
      rintro ⟨value, after⟩ ⟨value', after'⟩ u ⟨hvalue, hafter⟩ hrun
      have hle := unread_le_of_follows (follows_of_goal ht hrun trivial)
      refine (hd (.parenthesized hafter) (show 8 * u.unread + 0 < m by omega)).bind ?_
      rintro _ _ v ⟨hrest, hlast⟩ _
      exact agrees_pure ⟨.cons (.item hvalue) hrest, hlast⟩
  apply Agrees.ite
  · intro hfirst
    rw [if_pos hfirst] at h
    exact hitem h
  · intro hfirst
    rw [if_neg hfirst] at h
    apply Agrees.expect (by decide)
    intro s₁ _ hlt
    apply Agrees.seesElse
    · intro _
      exact agrees_unexpected.seq fun _ hu => (unexpected_ne_ok hu).elim
    · intro _
      exact hitem (by omega)

omit ht hd in
/-- The value of a parenthesized list that is no list of parameters. -/
theorem agrees_listValue {items items' : List Element} {inner inner' : Place} {stop stop' : Place}
    (hitems : List.Forall₂ L.Nodes items items') (hinner : L.Start inner inner')
    (hstop : L.Stop stop stop') :
    Agrees L L.Nodes
      (match expressionsOf items with
        | [value] => pure value
        | values => pure (.sequence (Span.closing inner stop) (.ofList values)) : Parser Expression)
      (match expressionsOf items' with
        | [value] => pure value
        | values => pure (.sequence (Span.closing inner' stop') (.ofList values)) :
          Parser Expression) s := by
  have hspan := Correspondence.spans_closing hinner hstop
  have hvalues := expressionsOf_alike hitems
  revert hvalues
  generalize expressionsOf items = values
  generalize expressionsOf items' = values'
  rintro (_ | ⟨hfirst, _ | ⟨hsecond, hrest⟩⟩)
  · exact agrees_pure (.sequence hspan .nil)
  · exact agrees_pure hfirst
  · exact agrees_pure (.sequence hspan (Node.alike_ofList (.cons hfirst (.cons hsecond hrest))))

omit ht in
/-- An arrow after a list has its items converted to parameters. -/
theorem agrees_listArrow {items items' : List Element} {start start' : Place}
    (hitems : List.Forall₂ L.Nodes items items') (hstart : L.Start start start')
    (h : 8 * s.unread ≤ m) :
    Agrees L L.Nodes
      (do
        let params := (← lift (patternsOfElements (items.map some) true)).reduceOption
        checkTargets true true params
        arrow d start params)
      (do
        let params := (← lift (patternsOfElements (items'.map some) true)).reduceOption
        checkTargets true true params
        arrow d' start' params) s := by
  have helements : List.Forall₂ (Option.Rel L.Nodes) (items.map some) (items'.map some) := by
    rw [List.forall₂_map_left_iff, List.forall₂_map_right_iff]
    exact hitems.imp fun _ _ => .some
  have hpatterns := sameOutcome_patternsOfElements helements true
  refine (agrees_lift hpatterns).bind fun patterns patterns' t hpatterns hp => ?_
  obtain ⟨-, rfl⟩ := lift_eq_ok.mp hp
  have hparams := forall₂_reduceOption hpatterns
  refine (agrees_checkTargets hparams (.same _)).seq fun u hc => ?_
  obtain ⟨-, rfl⟩ := checkTargets_eq_ok.mp hc
  exact agrees_arrow hd hstart hparams h

theorem agrees_parenthesizedExpression {start start' : Place} {canBeArrow : Bool}
    (hstart : L.Start start start') (h : 8 * s.unread ≤ m) :
    Agrees L L.Nodes (parenthesizedExpression d start canBeArrow)
      (parenthesizedExpression d' start' canBeArrow) s := by
  simp only [parenthesizedExpression, ite_bind]
  apply Agrees.expect (by decide)
  intro s₁ hfollows hlt
  have hlast₁ := last_isSome_of_follows hfollows hlt
  apply Agrees.here
  intro inner hinner
  refine (agrees_goal hd (.parenthesized .none) (by omega)).bind ?_
  rintro ⟨items, pending⟩ ⟨items', pending'⟩ s₂ ⟨hitems, hpending⟩ hrun
  have hfollows₂ := hfollows.trans (follows_of_goal ht hrun trivial)
  have hle := unread_le_of_follows (follows_of_goal ht hrun trivial)
  have hlast₂ := last_isSome_of_follows hfollows₂ (by omega)
  refine .lastEnd hlast₂ fun innerEnd innerEnd' hinnerEnd => ?_
  apply Agrees.expect (by decide)
  intro s₃ hfollows₃ hlt'
  have hlast₃ := last_isSome_of_follows hfollows₃ hlt'
  have hsees : Agrees L Eq
      (if canBeArrow = true then parenthesizedExpression.seesArrow else pure false)
      (if canBeArrow = true then parenthesizedExpression.seesArrow else pure false) s₃ :=
    .ite (fun _ => .canInsertSemicolon (.kind (agrees_pure rfl))) fun _ => agrees_pure rfl
  refine hsees.bind ?_
  rintro isArrow _ s₄ rfl hs
  obtain rfl : s₄ = s₃ := by
    split at hs
    · exact (seesArrow_eq_ok.mp hs).2
    · exact (pure_eq_ok.mp hs).2
  apply Agrees.ite
  · intro _
    exact agrees_listArrow hd hitems hstart (by omega)
  intro _
  have hrest := restAtEnd?_alike hitems
  cases hitems with
  | nil =>
    apply Agrees.get
    intro s' hs
    have hlast := L.last hs
    revert hlast hlast₃
    generalize s₄.stream.last = last
    generalize s'.stream.last = last'
    rintro hsome (hlast | _)
    · exact agrees_fail (L.stop_of_start hlast.start)
    · cases hsome
  | @cons item item' items items' hitem hmore =>
    have hvalue := agrees_listValue (.cons hitem hmore) hinner hinnerEnd (s := s₄)
    revert hrest
    generalize restAtEnd? (item :: items) = restSpan
    generalize restAtEnd? (item' :: items') = restSpan'
    rintro (hsp | _)
    · exact agrees_fail (L.stop_of_start hsp.start)
    · refine (agrees_refuse hpending).seq fun t hrun => ?_
      obtain ⟨-, rfl⟩ := refuse_eq_ok.mp hrun
      exact hvalue

theorem agrees_parenthesis {canBeArrow : Bool} (h : 8 * s.unread ≤ m) (hretry : Rereads L d d' s) :
    Agrees L L.Nodes (parenthesis d canBeArrow) (parenthesis d' canBeArrow) s := by
  apply Agrees.of_ok
  intro hok
  have hfails : canBeArrow = true → L.Lenient → ∀ s' e t, L.Alike s s' →
      arrowParameters d s = .error e t →
      ∃ fault t', arrowParameters d' s' = .error (.fault fault) t' := by
    rintro rfl lenient s' e t hs hp
    obtain ⟨r, u, hok⟩ := hok lenient
    cases of_parenthesis hok with
    | arrow allowed params_ok => exact absurd (hp.symm.trans params_ok) nofun
    | list no_params list_ok => exact hretry lenient hs list_ok ⟨e, t, hp⟩
  simp only [parenthesis, ite_bind]
  apply Agrees.here
  intro start hstart
  have hattempt : Agrees L (Option.Rel (List.Forall₂ L.Nodes))
      (if canBeArrow = true then attempt (arrowParameters d) else pure none)
      (if canBeArrow = true then attempt (arrowParameters d') else pure none) s :=
    .ite (fun hc => (agrees_arrowParameters hd h).attempt (hfails hc)) fun _ => agrees_pure .none
  refine hattempt.bind fun params params' s₁ hparams hrun => ?_
  have hle : s₁.unread ≤ s.unread := by
    split at hrun
    · rcases attempt_eq_ok.mp hrun with ⟨params, -, hread⟩ | ⟨-, rfl, -⟩
      · obtain ⟨s₂, htakes, hread, -⟩ := of_arrowParameters hread
        have h₂ := unread_lt_of_takes (by decide) htakes
        have h₁ := unread_le_of_follows (follows_of_parameters ht hread)
        omega
      · exact Nat.le_refl _
    · obtain ⟨-, rfl⟩ := pure_eq_ok.mp hrun
      exact Nat.le_refl _
  cases hparams with
  | some hparams => exact agrees_arrow hd hstart hparams (by omega)
  | none => exact agrees_parenthesizedExpression ht hd hstart (by omega)

omit ht in
theorem agrees_nameOrArrow {canBeArrow : Bool} (h : 8 * s.unread ≤ m) :
    Agrees L L.Nodes (nameOrArrow d canBeArrow) (nameOrArrow d' canBeArrow) s := by
  unfold nameOrArrow
  apply Agrees.here
  intro start hstart
  refine agrees_identifier.bind fun id id' s₁ hid hrun => ?_
  have hle := unread_le_of_follows (follows_of_identifier hrun)
  apply Agrees.canInsertSemicolon
  apply Agrees.kind
  apply Agrees.ite
  · intro _
    exact agrees_arrow hd hstart (.cons (.namePattern hid) .nil) (by omega)
  · intro _
    exact agrees_pure (.identifier hid)

theorem agrees_newExpression (hk : s.kind ≠ .eof) (h : 8 * s.unread ≤ m) :
    Agrees L L.Nodes (newExpression d) (newExpression d') s := by
  simp only [newExpression, ite_bind]
  apply Agrees.here
  intro start hstart
  apply Agrees.advance hk
  intro s₁ _ hlt
  apply Agrees.here
  intro calleeStart hcalleeStart
  refine (agrees_goal hd (.primary .none) (by omega)).bind ?_
  rintro ⟨atom, pending⟩ ⟨atom', pending'⟩ s₂ ⟨hatom, hpending⟩ hrun
  have h₂ := unread_le_of_follows (follows_of_goal ht hrun trivial)
  refine (agrees_refuse hpending).seq fun s₃ hp => ?_
  obtain ⟨-, rfl⟩ := refuse_eq_ok.mp hp
  refine (agrees_goal hd (.suffixes hatom hcalleeStart) (by omega)).bind ?_
  intro callee callee' s₄ hcallee hc
  have h₄ := unread_le_of_follows (follows_of_goal ht hc trivial)
  apply Agrees.eat (by decide)
  · intro s₅ _ hlt'
    refine (agrees_callArguments hd (by omega)).bind fun arguments arguments' t hargs _ => ?_
    exact .finish hstart fun sp sp' hsp => agrees_pure (.new hsp hcallee hargs)
  · intro _
    exact .finish hstart fun sp sp' hsp => agrees_pure (.new hsp hcallee .nil)

theorem agrees_chunks (h : 8 * s.unread ≤ m) :
    Agrees L (Prod.RProd (List.Forall₂ (TemplateElement.Alike L.Spans)) (List.Forall₂ L.Nodes))
      (chunks d) (chunks d') s := by
  unfold chunks
  apply Agrees.here
  intro start hstart
  apply Agrees.token
  intro token htoken
  rw [htoken.kind_eq, htoken.value_eq]
  split
  · rename_i hk _
    apply Agrees.advance (by simp [hk])
    intro s₁ _ hlt
    apply Agrees.sees
    refine .finish hstart fun sp sp' hsp => ?_
    apply Agrees.ite
    · intro _
      exact agrees_pure ⟨.cons ⟨hsp, rfl, rfl⟩ .nil, .nil⟩
    intro _
    apply Agrees.expect (by decide)
    intro s₂ _ hlt'
    refine (agrees_expression ht hd (by omega)).bind fun value value' s₃ hvalue hrun => ?_
    have hle := unread_le_of_follows (follows_of_expression ht hrun)
    apply Agrees.expect (by decide)
    intro s₄ _ hlt''
    refine (agrees_goal hd .chunks (by omega)).bind ?_
    rintro _ _ t ⟨hquasis, hvalues⟩ _
    exact agrees_pure ⟨.cons ⟨hsp, rfl, rfl⟩ hquasis, .cons hvalue hvalues⟩
  · exact agrees_unexpected

/-- The chunks of a template end at a backquote, which is left behind. -/
theorem agrees_template (h : 8 * s.unread ≤ m) :
    Agrees L L.Nodes (template d) (template d') s := by
  unfold template
  apply Agrees.here
  intro start hstart
  apply Agrees.expect (by decide)
  intro s₁ _ hlt
  refine (agrees_goal hd .chunks (by omega)).bind ?_
  rintro _ _ s₂ ⟨hquasis, hvalues⟩ hrun
  obtain ⟨-, hk⟩ := ht _ _ _ _ hrun trivial
  have hk : s₂.kind = .backQuote := hk
  apply Agrees.advance (by simp [hk])
  intro t _ _
  refine .finish hstart fun sp sp' hsp => ?_
  exact agrees_pure (.template hsp hquasis (Node.alike_ofList hvalues))

omit ht in
theorem agrees_shorthandProperty {start start' : Place} {id id' : Identifier}
    {pending pending' : Pending} (hstart : L.Start start start') (hid : id.Alike L.Spans id')
    (hp : L.Pendings pending pending') (h : 8 * s.unread ≤ m) :
    Agrees L (L.Readings L.Nodes) (shorthandProperty d start id pending)
      (shorthandProperty d' start' id' pending') s := by
  have hbare : Agrees L (L.Readings L.Nodes)
      (do
        let span ← finish start
        return (.property span (.nameKey id) (.identifier id) .init false true, pending))
      (do return (.property (← finish start') (.nameKey id') (.identifier id') .init false true,
        pending')) s :=
    .finish hstart fun sp sp' hsp =>
      agrees_pure ⟨.property hsp (.nameKey hid) (.identifier hid), hp⟩
  unfold shorthandProperty
  apply Agrees.kind
  split
  · exact hbare
  · exact hbare
  · rename_i hk
    apply Agrees.here
    intro place hplace
    apply Agrees.advance (by simp [hk])
    intro s₁ _ hlt
    refine (agrees_goal hd (.assignment (pendings_record hp hplace)) (by omega)).bind ?_
    rintro ⟨value, after⟩ ⟨value', after'⟩ t ⟨hvalue, hafter⟩ _
    refine .finish hstart fun sp sp' hsp => .finish hstart fun sq sq' hsq => ?_
    exact agrees_pure
      ⟨.property hsq (.nameKey hid) (.assignment hsp (.namePattern hid) hvalue), hafter⟩
  · exact agrees_unexpected

omit ht hd in
theorem accessorKind?_eq {K : Correspondence} {key key' : Key} (h : K.Nodes key key') :
    accessorKind? key' = accessorKind? key := by
  cases h with
  | nameKey hid => simp only [accessorKind?, hid.name_eq]
  | literalKey | computedKey => rfl

omit ht hd in
theorem alike_toExpression {K : Correspondence} {f f' : FunctionParts} (h : f.Alike K f') :
    K.Nodes f.toExpression f'.toExpression := by
  unfold FunctionParts.toExpression
  rw [h.generator_eq]
  exact .function h.place h.id (Node.alike_ofList h.params) h.body

theorem agrees_property {pending pending' : Pending} (hp : L.Pendings pending pending')
    (h : 8 * s.unread ≤ m) :
    Agrees L (L.Readings L.Nodes) (property d pending) (property d' pending') s := by
  simp only [property, ite_bind]
  apply Agrees.here
  intro start hstart
  refine (Agrees.eat_self (by decide)).bind ?_
  rintro generator _ s₁ rfl hstar
  have h₁ := unread_le_of_follows (follows_of_eats (eat_eq_ok.mp hstar) (by decide))
  refine (agrees_propertyName hd (by omega)).bind fun word word' s₂ hword hrun => ?_
  have h₂ := unread_le_of_follows (follows_of_propertyName ht (of_propertyName hrun))
  apply Agrees.kind
  rw [accessorKind?_eq hword]
  generalize (if (generator || endsKey s₂.kind) = true then none else accessorKind? word) = accessor
  have hkey : Agrees L L.Nodes
      (if accessor.isSome = true then propertyName d else pure word)
      (if accessor.isSome = true then propertyName d' else pure word') s₂ :=
    .ite (fun _ => agrees_propertyName hd (by omega)) fun _ => agrees_pure hword
  refine hkey.bind fun key key' s₃ hkey hrun => ?_
  have h₃ : s₃.unread ≤ s₂.unread := by
    rcases ite_eq_ok.mp hrun with ⟨-, hrun⟩ | ⟨-, hrun⟩
    · exact unread_le_of_follows (follows_of_propertyName ht (of_propertyName hrun))
    · obtain ⟨-, rfl⟩ := pure_eq_ok.mp hrun
      exact Nat.le_refl _
  apply Agrees.kind
  apply Agrees.ite
  · intro _
    refine (agrees_method ht hd (by omega)).bind fun f f' t hf _ => ?_
    refine .finish hstart fun sp sp' hsp => ?_
    exact agrees_pure ⟨.property hsp hkey (alike_toExpression hf), hp⟩
  intro _
  apply Agrees.eatElse (by decide)
  · intro s₄ _ hlt
    refine (agrees_goal hd (.assignment hp) (by omega)).bind ?_
    rintro ⟨value, after⟩ ⟨value', after'⟩ t ⟨hvalue, hafter⟩ _
    exact .finish hstart fun sp sp' hsp => agrees_pure ⟨.property hsp hkey hvalue, hafter⟩
  · intro _
    cases hkey with
    | nameKey hid => exact agrees_shorthandProperty hd hstart hid hp (by omega)
    | literalKey | computedKey => exact agrees_unexpected

theorem agrees_member {pending pending' : Pending} (hp : L.Pendings pending pending')
    (h : 8 * s.unread ≤ m) :
    Agrees L (L.Readings L.Nodes) (members.member d pending) (members.member d' pending') s := by
  unfold members.member
  apply Agrees.seesElse
  · intro hk
    refine (agrees_spread hd hp (by simp [hk]) h).bind ?_
    rintro _ _ t ⟨⟨hsp, hargument⟩, hafter⟩ _
    exact agrees_pure ⟨.spreadMember hsp hargument, hafter⟩
  · intro _
    exact agrees_property ht hd hp h

theorem agrees_members {isFirst : Bool} {pending pending' : Pending}
    (hp : L.Pendings pending pending') (h : 8 * s.unread + (if isFirst then 1 else 0) ≤ m) :
    Agrees L (L.Readings (List.Forall₂ L.Nodes)) (members d isFirst pending)
      (members d' isFirst pending') s := by
  simp only [members, ite_bind, unless_bind]
  apply Agrees.closing (.inl rfl) (by decide) (fun _ => agrees_pure ⟨.nil, hp⟩)
  apply Agrees.separator
  intro s₁ hsep
  have h₁ : 8 * s₁.unread + 1 ≤ m := room_of_separator h (by decide) hsep
  refine .closing (k := .braceR) ?_ (by decide) (fun _ => agrees_pure ⟨.nil, hp⟩) ?_
  · split
    · exact .inr rfl
    · exact .inl rfl
  refine (agrees_member ht hd hp (by omega)).bind ?_
  rintro ⟨member, after⟩ ⟨member', after'⟩ s₂ ⟨hmember, hafter⟩ hrun
  have hle := unread_le_of_follows (follows_of_objectMember ht (of_member hrun))
  refine (hd (.members hafter) (show 8 * s₂.unread + 0 < m by omega)).bind ?_
  rintro _ _ t ⟨hrest, hlast⟩ _
  exact agrees_pure ⟨.cons hmember hrest, hlast⟩

theorem agrees_primary {pending pending' : Pending} (hp : L.Pendings pending pending')
    (h : 8 * s.unread ≤ m) (hretry : Rereads L d d' s) :
    Agrees L (L.Readings L.Nodes) (primary d pending) (primary d' pending') s := by
  have hliteral : Agrees L (L.Readings L.Nodes) (do return (.literal (← literal), pending))
      (do return (.literal (← literal), pending')) s :=
    agrees_literal.bind fun _ _ _ hlit _ => agrees_pure ⟨.literal hlit, hp⟩
  unfold primary
  apply Agrees.here
  intro start hstart
  apply Agrees.get
  intro s' hs
  rw [L.offset_eq hs hstart, L.canBeArrow_eq hs]
  apply Agrees.kind
  split <;> rename_i hk
  · refine (agrees_nameOrArrow hd h).bind fun e e' t he _ => ?_
    exact agrees_pure ⟨he, hp⟩
  · apply Agrees.advance (by simp [hk])
    intro t _ _
    exact .finish hstart fun sp sp' hsp => agrees_pure ⟨.this hsp, hp⟩
  all_goals try exact hliteral
  · refine (agrees_parenthesis ht hd h hretry).bind fun e e' t he _ => ?_
    exact agrees_pure ⟨he, hp⟩
  · apply Agrees.advance (by simp [hk])
    intro s₁ _ hlt
    refine (agrees_goal hd (.elements (by decide) hp) (by omega)).bind ?_
    rintro ⟨elements, after⟩ ⟨elements', after'⟩ t ⟨helements, hafter⟩ _
    refine .finish hstart fun sp sp' hsp => ?_
    exact agrees_pure ⟨.array hsp (Node.alike_ofHoleyList helements), hafter⟩
  · apply Agrees.advance (by simp [hk])
    intro s₁ _ hlt
    refine (agrees_goal hd (.members hp) (by omega)).bind ?_
    rintro ⟨members, after⟩ ⟨members', after'⟩ t ⟨hmembers, hafter⟩ _
    refine .finish hstart fun sp sp' hsp => ?_
    exact agrees_pure ⟨.object hsp (Node.alike_ofList hmembers), hafter⟩
  · apply Agrees.advance (by simp [hk])
    intro s₁ _ hlt
    refine (agrees_function ht hd hstart (by omega)).bind fun f f' t hf _ => ?_
    exact agrees_pure ⟨alike_toExpression hf, hp⟩
  · refine (agrees_template ht hd h).bind fun e e' t he _ => ?_
    exact agrees_pure ⟨he, hp⟩
  · refine (agrees_newExpression ht hd (by simp [hk]) h).bind fun e e' t he _ => ?_
    exact agrees_pure ⟨he, hp⟩
  · exact agrees_unexpected

end Rules

end EcmaTree.Agreement
