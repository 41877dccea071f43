import EcmaTree.Proofs.Grammar.Loosening.Pending

/-!
# Targets among expressions

What is read as an expression under stricter options, and as a target under looser ones, can be
read as a target under the stricter options as well, up to the token where the expression ends.
For whatever strictness could refuse in a target, a default value or the key of a property, has
been read in the expression. Three runs take part: the expression and the target on the left,
which begin at the same state, and the target on the right, beside them.
-/

namespace EcmaTree

namespace Grammar

open EcmaTree.Parser EcmaTree.Reading EcmaTree.Trail ParseState

variable {options options' : ParseOptions} {d d' : Descent} {m : Nat}
  {s s' t t' u u' : ParseState} {pending : Pending} {r : Expression × Pending} {p : Pattern}

section Ends

/-! ### Operands that end where their first part ends -/

variable (hd : Answers options d)

include hd

theorem end_of_leftHandSide (h : LeftHandSide d pending s r u) :
    ∃ r' t, d (.primary pending) s = .ok r' t ∧ (t.kind.closesOperand = true → u = t) := by
  cases h with
  | atom atom_ok => exact ⟨_, u, atom_ok, fun _ => rfl⟩
  | suffixed atom_ok more =>
    refine ⟨_, _, atom_ok, fun hk => ?_⟩
    rw [← hd.rule_eq (.suffixes _ s.place false) _ trivial] at more
    cases more.symm.trans (suffixes_of_closes hk)
    rfl

theorem end_of_unary (hu : s.kind.isUnary = false) (h : Unary d pending s r u) :
    ∃ r' t, d (.primary pending) s = .ok r' t ∧ (t.kind.closesOperand = true → u = t) := by
  cases h with
  | operator kind => exact absurd (hu.symm.trans kind) nofun
  | pending left_ok => exact end_of_leftHandSide hd left_ok
  | trailing left_ok more =>
    obtain ⟨r', t, hprimary, hend⟩ := end_of_leftHandSide hd left_ok
    refine ⟨r', t, hprimary, fun hk => ?_⟩
    cases hend hk
    cases more with
    | bare => rfl
    | update kind => exact absurd (kind ▸ hk) (by decide)

theorem end_of_binary {noIn : Bool} (hu : s.kind.isUnary = false)
    (h : Binary d noIn pending s r u) :
    ∃ r' t, d (.primary pending) s = .ok r' t ∧ (t.kind.closesOperand = true → u = t) := by
  cases h with
  | operand first =>
    rw [← hd.rule_eq (.unary pending) s trivial] at first
    exact end_of_unary hd hu (of_unary first)
  | operators first more =>
    rw [← hd.rule_eq (.unary pending) s trivial] at first
    obtain ⟨r', t, hprimary, hend⟩ := end_of_unary hd hu (of_unary first)
    refine ⟨r', t, hprimary, fun hk => ?_⟩
    cases hend hk
    rw [← hd.rule_eq (.operators _ s.place 0 noIn) _ trivial] at more
    cases more.symm.trans (operators_of_closes hk)
    rfl

/-- An operand that ends before a token that closes it is a primary expression. -/
theorem end_of_conditional {noIn : Bool} (hu : s.kind.isUnary = false)
    (h : conditional d noIn pending s = .ok r u) :
    ∃ r' t, primary d pending s = .ok r' t ∧ (t.kind.closesOperand = true → u = t) := by
  have hprimary : ∀ {r' t}, d (.primary pending) s = .ok r' t → primary d pending s = .ok r' t :=
    fun hrun => (hd.rule_eq (.primary pending) s trivial).trans hrun
  cases of_conditional h with
  | plain test_ok =>
    obtain ⟨r', t, hrun, hend⟩ := end_of_binary hd hu test_ok
    exact ⟨r', t, hprimary hrun, hend⟩
  | choice test_ok question =>
    obtain ⟨r', t, hrun, hend⟩ := end_of_binary hd hu test_ok
    refine ⟨r', t, hprimary hrun, fun hk => ?_⟩
    cases hend hk
    exact absurd (question.1 ▸ hk) (by decide)

end Ends

/-- A rule reads from `s` on and comes to the token at which `u` stands. -/
def Reaches {α : Type} (q : Parser α) (s u : ParseState) : Prop :=
  ∃ a t, q s = .ok a t ∧ u.Beside False t

/-- Lists worth less than `m` that are read as expressions on the left and as targets on the right
can be read as targets on the left. -/
structure Admits (d d' : Descent) (m : Nat) : Prop where
  elements : ∀ {s s' u u' pending isFirst r ps}, s.Beside True s' → IsBehind pending s →
    8 * s.unread + (if isFirst then 3 else 0) < m →
    d (.elements .bracketR true true isFirst pending) s = .ok r u →
    d' (.targets .bracketR true true isFirst) s' = .ok ps u' →
    Reaches (d (.targets .bracketR true true isFirst)) s u
  members : ∀ {s s' u u' pending isFirst r ps}, s.Beside True s' → IsBehind pending s →
    8 * s.unread + (if isFirst then 1 else 0) < m →
    d (.members isFirst pending) s = .ok r u →
    d' (.patternMembers isFirst) s' = .ok ps u' →
    Reaches (d (.patternMembers isFirst)) s u
  parenthesized : ∀ {s s' t u u' pending isFirst r ps}, s.Beside True s' → IsBehind pending s →
    8 * s.unread + (if isFirst then 3 else 0) < m →
    d (.parenthesized isFirst pending) s = .ok r t → Takes .parenR t u →
    d' (.targets .parenR false false isFirst) s' = .ok ps u' →
    Reaches (d (.targets .parenR false false isFirst)) s u

section Admitted

/- Lists that are worth less than `m` are admitted, and on goals worth less than `m` the sloppy
answers agree with the strict ones. -/
variable (hd : Answers options d) (hm : Admits d d' m)
  (hag : ∀ {g g' : Goal} {R : g.Result → g'.Result → Prop} {s : ParseState},
    Goal.Alike (beside True).toCorrespondence g g' R → 8 * s.unread + g.rank < m →
      Agrees (beside True) R (d g) (d' g') s)

omit hd hm in
/-- Behind a name it does not matter whether an arrow function could have begun with it. -/
theorem advance_of_marked {lenient : Prop} (hs : s.Beside lenient s') (hk : s.kind = .name)
    (ha : advance s.markArrow = .ok () t) : ∃ v, advance s = .ok () v ∧ t.Beside False v := by
  have hmark : s.markArrow = { s with arrowStart := some s.place.offset } := by
    unfold markArrow
    rw [if_pos (.inr hk)]
  rw [hmark] at ha
  obtain ⟨stream, hstream, rfl⟩ := advance_eq_ok.mp ha
  refine ⟨{ s with stream := stream }, advance_eq_ok.mpr ⟨stream, hstream, rfl⟩, ?_⟩
  refine hs.left.of_wide_step ⟨by simp [hk], hstream⟩ (by simp [hk]) ?_ hs.mark_le
  rintro _ ⟨⟩
  exact Nat.le_refl _

include hd

/-- A name that no arrow follows. -/
theorem reaches_name {noIn : Bool} {id : Identifier} (hs : s.Beside True s')
    (hread : conditional d noIn pending s.markArrow = .ok r u)
    (hname : identifier false s' = .ok id u') (hk : u'.kind.closesOperand = true) :
    Reaches (bindingAtom d) s u := by
  obtain ⟨name, hv, hkind', ha', -⟩ := of_identifier hname
  have hkind : s.kind = .name := hs.kind_eq ▸ (by simpa using hkind')
  have hmarked : s.markArrow.kind = .name := by
    rwa [ParseState.kind, stream_markArrow]
  obtain ⟨r', t, hprimary, hend⟩ :=
    end_of_conditional hd (by simp [hmarked, TokenKind.isUnary]) hread
  simp [primary, hmarked] at hprimary
  obtain ⟨e, hprimary, rfl⟩ := hprimary
  have hreached : ∀ {id w}, identifier false s.markArrow = .ok id w →
      Reaches (bindingAtom d) s w ∧ w.kind.closesOperand = true := by
    intro id w hid
    obtain ⟨-, -, -, hadvance, -⟩ := of_identifier hid
    obtain ⟨v, ha, hbeside⟩ := advance_of_marked hs hkind hadvance
    have hbeside' := hs.of_takes (by decide) ⟨hkind, ha⟩ ha'
    have hatom := BindingAtom.name (d := d) (identifier_run (hs.stream_eq ▸ hv) hkind ha)
    refine ⟨⟨_, v, hatom.run, hbeside⟩, ?_⟩
    rw [← hbeside.kind_eq, ← hbeside'.kind_eq, hk]
  cases of_nameOrArrow hprimary with
  | name name_ok =>
    obtain ⟨hreaches, hcloses⟩ := hreached name_ok
    cases hend hcloses
    exact hreaches
  | arrow allowed name_ok arrow_ok =>
    obtain ⟨-, hcloses⟩ := hreached name_ok
    obtain ⟨_, _, harrow, -⟩ := of_arrow arrow_ok
    exact absurd (harrow.1 ▸ hcloses) (by decide)

include hm hag

theorem reaches_array {noIn : Bool} {s₁' : ParseState} {ps : List (Option Pattern)}
    (hs : s.Beside True s') (hp : IsBehind pending s) (h : 8 * s.unread ≤ m)
    (hread : conditional d noIn pending s.markArrow = .ok r u) (opening : Takes .bracketL s' s₁')
    (items : d' (.targets .bracketR true true true) s₁' = .ok ps u')
    (hk : u'.kind.closesOperand = true) : Reaches (bindingAtom d) s u := by
  have hkind : s.kind = .bracketL := hs.kind_eq ▸ opening.1
  rw [markArrow_eq_self (by simp [hkind]) (by simp [hkind])] at hread
  obtain ⟨r', t, hprimary, hend⟩ :=
    end_of_conditional hd (by simp [hkind, TokenKind.isUnary]) hread
  obtain ⟨s₁, elements, after, ha, helements, rfl⟩ := (array_eq_ok hkind).mp hprimary
  have hs₁ := hs.of_takes (by decide) ⟨hkind, ha⟩ opening.2
  have hlt := unread_lt_of_takes (by decide) ⟨hkind, ha⟩
  have hf := follows_of_takes ⟨hkind, ha⟩ (by decide)
  obtain ⟨qs, v, hqs, hv⟩ := hm.elements hs₁ (hp.mono hs.placed hf) (by simp; omega) helements items
  have hlist : Agrees (beside True) _ (d (.targets .bracketR true true true)) _ s₁ :=
    hag (.targets (by decide)) (by simp [Goal.rank]; omega)
  obtain ⟨-, hbeside⟩ := hlist.of_both_ok hs₁ hqs items
  cases hend (by rw [← hv.kind_eq, ← hbeside.kind_eq, hk])
  exact ⟨_, v, (BindingAtom.array ⟨hkind, ha⟩ hqs).run, hv⟩

theorem reaches_object {noIn : Bool} {s₁' : ParseState} {ps : List PatternMember}
    (hs : s.Beside True s') (hp : IsBehind pending s) (h : 8 * s.unread ≤ m)
    (hread : conditional d noIn pending s.markArrow = .ok r u) (opening : Takes .braceL s' s₁')
    (items : d' (.patternMembers true) s₁' = .ok ps u') (hk : u'.kind.closesOperand = true) :
    Reaches (bindingAtom d) s u := by
  have hkind : s.kind = .braceL := hs.kind_eq ▸ opening.1
  rw [markArrow_eq_self (by simp [hkind]) (by simp [hkind])] at hread
  obtain ⟨r', t, hprimary, hend⟩ :=
    end_of_conditional hd (by simp [hkind, TokenKind.isUnary]) hread
  obtain ⟨s₁, members, after, ha, hmembers, rfl⟩ := (object_eq_ok hkind).mp hprimary
  have hs₁ := hs.of_takes (by decide) ⟨hkind, ha⟩ opening.2
  have hlt := unread_lt_of_takes (by decide) ⟨hkind, ha⟩
  have hf := follows_of_takes ⟨hkind, ha⟩ (by decide)
  obtain ⟨qs, v, hqs, hv⟩ := hm.members hs₁ (hp.mono hs.placed hf) (by simp; omega) hmembers items
  have hlist : Agrees (beside True) _ (d (.patternMembers true)) _ s₁ :=
    hag .patternMembers (by simp [Goal.rank]; omega)
  obtain ⟨-, hbeside⟩ := hlist.of_both_ok hs₁ hqs items
  cases hend (by rw [← hv.kind_eq, ← hbeside.kind_eq, hk])
  exact ⟨_, v, (BindingAtom.object ⟨hkind, ha⟩ hqs).run, hv⟩

theorem reaches_bindingAtom {noIn : Bool} (hs : s.Beside True s') (hp : IsBehind pending s)
    (h : 8 * s.unread ≤ m) (hread : conditional d noIn pending s.markArrow = .ok r u)
    (hatom : BindingAtom d' s' p u') (hk : u'.kind.closesOperand = true) :
    Reaches (bindingAtom d) s u := by
  cases hatom with
  | name name_ok => exact reaches_name hd hs hread name_ok hk
  | array opening items => exact reaches_array hd hm hag hs hp h hread opening items hk
  | object opening items => exact reaches_object hd hm hag hs hp h hread opening items hk

omit hd hm hag in
/-- A `yield` without an argument, which is a bare name where it is a target. -/
theorem reaches_yield {noIn : Bool} {e : Expression} {target : Pattern}
    (hs : s.Beside True s') (word : s.isWord "yield" = true)
    (yield_ok : YieldExpression d noIn s e u) (hu : u.kind.endsItem = true)
    (hatom : BindingAtom d' s' target t') (hk : t'.kind.closesOperand = true) :
    Reaches (bindingElement d) s u := by
  have hkind : s.kind = .name := by
    unfold isWord at word
    simp at word
    exact word.1
  obtain ⟨name, hv, ha'⟩ : ∃ name, s.stream.token.value = .name name ∧ advance s' = .ok () t' := by
    have hkind' := hs.kind_eq.trans hkind
    cases hatom with
    | name name_ok =>
      obtain ⟨name, hv, -, ha', -⟩ := of_identifier name_ok
      exact ⟨name, hs.stream_eq ▸ hv, ha'⟩
    | array opening => exact absurd (opening.1.symm.trans hkind') (by decide)
    | object opening => exact absurd (opening.1.symm.trans hkind') (by decide)
  cases yield_ok with
  | alone ha =>
    have hbeside := hs.of_takes (by decide) ⟨hkind, ha⟩ ha'
    have hbare : u.kind ≠ .eq := fun heq => absurd (heq ▸ hu) (by decide)
    have hatom := BindingAtom.name (d := d) (identifier_run hv hkind ha)
    exact ⟨_, u, bindingElement_run hatom (.bare hbare), hbeside.left⟩
  | argument ha star argument begins =>
    have hbeside := hs.of_takes (by decide) ⟨hkind, ha⟩ ha'
    rw [← hbeside.kind_eq] at begins
    rcases TokenKind.cases_of_closesOperand hk with h | h | h | h | h | h <;>
      simp [h, TokenKind.startsExpression] at begins

/-- What is read as an item of a list on the left, and as a target with a default value on the
right. -/
theorem reaches_bindingElement (hs : s.Beside True s') (hp : IsBehind pending s)
    (h : 8 * s.unread ≤ m) (hrun : d (.assignment false false pending) s = .ok r u)
    (hu : u.kind.endsItem = true) (helement : bindingElement d' s' = .ok p u')
    (hu' : u'.kind.endsItem = true) : Reaches (bindingElement d) s u := by
  obtain ⟨target, t', hatom, hdefault⟩ := of_bindingElement helement
  have hk : t'.kind.closesOperand = true := by
    cases hdefault with
    | given eq => exact eq.1 ▸ rfl
    | bare => exact TokenKind.closesOperand_of_endsItem hu'
  have hatoms : ∀ {q v}, bindingAtom d s = .ok q v → v.Beside True t' := by
    intro q v hq
    exact ((Agreement.agrees_bindingAtom hag h).of_both_ok hs hq hatom.run).2
  rw [← hd.rule_eq (.assignment false false pending) s trivial] at hrun
  cases of_assignment hrun with
  | yield scope word yield_ok => exact reaches_yield hs word yield_ok hu hatom hk
  | plain left_ok last =>
    obtain ⟨q, v, hq, hv⟩ := reaches_bindingAtom hd hm hag hs hp h left_ok hatom hk
    refine ⟨q, v, bindingElement_run (of_bindingAtom hq) (.bare ?_), hv⟩
    rw [hv.kind_eq]
    rintro heq
    rw [heq] at last
    exact absurd last (by decide)
  | assign left_ok kind spelling simple target_ok legal word value_ok =>
    obtain ⟨q, v, hq, hv⟩ := reaches_bindingAtom hd hm hag hs hp h left_ok hatom hk
    have hkind := (hatoms hq).kind_eq
    cases hdefault with
    | given eq =>
      have heq : v.kind = .eq := by rw [← hkind, eq.1]
      obtain ⟨v₂, ha, hv₂⟩ := hv.advance (by rw [← hv.kind_eq, heq]; decide) word
      obtain ⟨v₃, hvalue, hv₃⟩ := hd.carries_value hv₂ value_ok
      exact ⟨_, v₃, bindingElement_run (of_bindingAtom hq) (.given ⟨heq, ha⟩ hvalue), hv₃⟩
    | bare =>
      have hno := TokenKind.not_isAssignment_of_endsItem hu'
      rw [hkind, hv.kind_eq, kind] at hno
      cases hno

theorem reaches_restOfBinding {s₁ : ParseState} {rest : Span × Pattern} (hs : s.Beside True s')
    (hp : IsBehind pending s) (h : 8 * s.unread ≤ m) (dots : Takes .ellipsis s s₁)
    (hrun : d (.assignment false false pending) s₁ = .ok r u) (hu : u.kind.endsItem = true)
    (hrest : restOfBinding s' = .ok rest u') (hu' : u'.kind.endsItem = true) :
    Reaches restOfBinding s u := by
  obtain ⟨s₁', id, ha', hid', -⟩ := of_restOfBinding hrest
  have hf := follows_of_takes dots (by decide)
  have hs₁ := hs.of_takes (by decide) dots ha'
  have hle := unread_le_of_follows hf
  have hbare : u'.kind ≠ .eq := fun heq => absurd (heq ▸ hu') (by decide)
  have helement := bindingElement_run (d := d') (.name hid') (.bare hbare)
  obtain ⟨name, -, hname, ha₁', -⟩ := of_identifier hid'
  have hkind : s₁.kind = .name := hs₁.kind_eq ▸ (by simpa using hname)
  obtain ⟨q, v, hq, hv⟩ := reaches_bindingElement hd hm hag hs₁ (hp.mono hs.placed hf) (by omega)
    hrun hu helement hu'
  obtain ⟨target, t, hatom, hdefault⟩ := of_bindingElement hq
  cases hatom with
  | name name_ok =>
    obtain ⟨-, -, -, ha₁, -⟩ := of_identifier name_ok
    have hend := hs₁.of_takes (by decide) ⟨hkind, ha₁⟩ ha₁'
    cases hdefault with
    | given eq => exact absurd (eq.1 ▸ hend.kind_eq) hbare
    | bare => exact ⟨_, v, restOfBinding_run dots.2 name_ok, hv⟩
  | array opening => exact absurd (opening.1.symm.trans hkind) (by decide)
  | object opening => exact absurd (opening.1.symm.trans hkind) (by decide)

omit hd hm hag in
theorem endsItem_of_targets {stop : TokenKind} {holes trailingComma : Bool}
    (hd : Answers options d) (hstop : stop = .parenR ∨ stop = .bracketR)
    {ps : List (Option Pattern)}
    (h : d (.targets stop holes trailingComma false) s = .ok ps u) : s.kind.endsItem = true := by
  have hcloses : stop.endsItem = true := by rcases hstop with rfl | rfl <;> rfl
  have hbounded : stop ≠ .eof := by rcases hstop with rfl | rfl <;> decide
  rw [← hd.rule_eq (.targets stop holes trailingComma false) s hbounded] at h
  cases of_targets h with
  | closed closing => rw [closing.1, hcloses]
  | trailing comma | hole comma | rest comma | item comma => cases comma with
    | comma comma => rw [comma.1]; rfl

omit hm hag in
/-- A bracket that closes a list is all that is left of it. -/
theorem advance_of_elements {r : List (Option Element) × Pending} (hk : s.kind = .bracketR)
    (h : d (.elements .bracketR true true false pending) s = .ok r u) : advance s = .ok () u := by
  rw [← hd.rule_eq (.elements .bracketR true true false pending) s nofun] at h
  cases of_elements h with
  | closed closing => exact closing.2
  | trailing comma => cases comma with
    | comma comma => exact absurd (hk.symm.trans comma.1) (by decide)
  | item comma item_ok more opens => exact absurd hk opens

theorem reaches_elements (hd' : Answers options' d') {isFirst : Bool}
    {r : List (Option Element) × Pending} {ps : List (Option Pattern)} (hs : s.Beside True s')
    (hp : IsBehind pending s) (h : 8 * s.unread + (if isFirst then 3 else 0) ≤ m)
    (hrun : elements d .bracketR true true isFirst pending s = .ok r u)
    (htargets : targets d' .bracketR true true isFirst s' = .ok ps u') :
    Reaches (targets d .bracketR true true isFirst) s u := by
  cases of_elements hrun with
  | closed closing =>
    have hend := hs.left.of_takes (by decide) closing closing.2
    exact ⟨_, u, (Targets.closed closing).run (.inr rfl), hend⟩
  | trailing comma closing =>
    have hend := (hs.left.of_separator comma comma).of_takes (by decide) closing closing.2
    exact ⟨_, u, (Targets.trailing comma closing rfl).run (.inr rfl), hend⟩
  | @item s₁ element between s₂ rest after _ comma item_ok more opens goesOn =>
    have h₁ : 8 * s₁.unread + 3 ≤ m := Agreement.room_of_separator h (by decide) comma
    have hf₁ := follows_of_separator comma
    have hle₂ := unread_le_of_follows (follows_of_listElement hd.traces item_ok)
    have hs₁ := TokenStream.isPlaced_of_follows hs.placed hf₁
    have hp₁ := hp.mono hs.placed hf₁
    have hp₂ := (BareDefault.gathers_of_listElement hd.traces hd.holds hs₁ hp₁ item_ok).behind
    have hu₂ := endsItem_of_elements hd more
    have hopen : s₁.kind ≠ .bracketR := by
      cases comma with
      | first => exact opens
      | comma => exact goesOn rfl rfl
    cases of_targets htargets with
    | closed closing => exact absurd (hs.kind_eq ▸ closing.1) opens
    | trailing comma' closing =>
      exact absurd ((hs.of_separator comma comma').kind_eq ▸ closing.1) hopen
    | hole comma' next more' allowed =>
      have hb := hs.of_separator comma comma'
      cases item_ok with
      | hole allowed next =>
        obtain ⟨qs, v, hqs, hv⟩ := hm.elements hb hp₁ (by simp; omega) more more'
        exact ⟨_, v, (Targets.hole comma next hqs allowed).run (.inr rfl), hv⟩
      | spread dots => exact absurd (dots.1 ▸ hb.kind_eq ▸ next) (by decide)
      | item item_ok plain present => exact absurd (hb.kind_eq ▸ next) (present rfl)
    | rest comma' dots' rest_ok closing =>
      have hb := hs.of_separator comma comma'
      cases item_ok with
      | hole allowed next => exact absurd (next ▸ hb.kind_eq ▸ dots') (by decide)
      | spread dots argument_ok =>
        obtain ⟨⟨span, q⟩, v, hq, hv⟩ := reaches_restOfBinding hd hm hag hb hp₁ (by omega) dots
          argument_ok hu₂ rest_ok (closing.1 ▸ rfl)
        have hagrees := Agreement.agrees_restOfBinding (L := beside True) dots.1
        obtain ⟨-, hend⟩ := hagrees.of_both_ok hb hq rest_ok
        have hkind : s₂.kind = .bracketR := by rw [← hv.kind_eq, ← hend.kind_eq, closing.1]
        have hlast := advance_of_elements hd hkind more
        obtain ⟨w, ha, hw⟩ := hv.advance (by simp [hkind]) hlast
        have hclosing : Takes .bracketR v w := ⟨hv.kind_eq ▸ hkind, ha⟩
        exact ⟨_, w, (Targets.rest comma dots.1 hq hclosing).run (.inr rfl), hw⟩
      | item item_ok plain present => exact absurd (hb.kind_eq ▸ dots') plain
    | item comma' item_ok' more' =>
      have hb := hs.of_separator comma comma'
      have hbegins := kind_of_bindingElement item_ok'
      rw [hb.kind_eq] at hbegins
      cases item_ok with
      | hole allowed next => simp [next] at hbegins
      | spread dots => simp [dots.1] at hbegins
      | item item_ok plain present =>
        obtain ⟨q, v, hq, hv⟩ := reaches_bindingElement hd hm hag hb hp₁ (by omega) item_ok hu₂
          item_ok' (endsItem_of_targets hd' (.inr rfl) more')
        have hagrees := Agreement.agrees_bindingElement hd.traces hag (s := s₁) (by omega)
        obtain ⟨-, hend⟩ := hagrees.of_both_ok hb hq item_ok'
        obtain ⟨u₁, more₁, hu₁⟩ := hd.carries
          (g := .elements .bracketR true true false _) nofun hv more
        obtain ⟨qs, w, hqs, hw⟩ := hm.elements hend (hv.isBehind hp₂)
          (by rw [hv.unread_eq]; simp; omega) more₁ more'
        exact ⟨_, w, (Targets.item comma hq hqs).run (.inr rfl), hu₁.trans hw⟩

omit hm in
/-- A default value that leaves none pending, since it is read on the right where none may be. -/
theorem value_of_pending (hd' : Answers options' d') {place : Place} {e e' : Expression}
    {after : Pending} (hs : s.Beside True s') (hp : IsBehind (some place) s)
    (h : 8 * s.unread + 2 ≤ m)
    (hrun : d (.assignment false false (some place)) s = .ok (e, after) u)
    (hu : u.kind.endsItem = true) (hvalue : d'.value false s' = .ok e' u') :
    d.value false s = .ok e u := by
  obtain ⟨last, hvalue⟩ := of_value hvalue
  rw [← hd.rule_eq (.assignment false false _) s trivial] at hrun
  rw [← hd'.rule_eq (.assignment false true none) s' trivial] at hvalue
  have howned : Repeats SameReading (assignment d false false (some place))
      (assignment d false true none) s u := by
    refine repeats_assignment fun hyield left after t hleft hend => ?_
    obtain ⟨after', hleft'⟩ := left_of_pending hd (repends hd m) (q := none) hs.placed hp
      (by omega) hu hleft hend
    refine ⟨after', hleft', fun _ hk => ?_⟩
    have hunread : s.markArrow.unread = s.unread := congrArg TokenStream.unread (stream_markArrow s)
    have hagrees : Agrees (beside True) _ (conditional d false none) (conditional d' false none)
        s.markArrow :=
      Agreement.agrees_conditional hd.traces hag .none (by omega)
    obtain ⟨⟨left', after''⟩, v, hleft'', ⟨-, hafter⟩, hbeside⟩ :=
      hagrees.exists_of_ok hs.markArrow hleft'
    cases of_assignment hvalue with
    | yield scope word =>
      rw [hs.isWord_eq] at word
      rw [hs.scope.inGenerator_eq] at scope
      exact absurd (by rw [scope, word]; rfl) hyield
    | plain left_ok last settled =>
      cases left_ok.symm.trans hleft''
      cases settled rfl
      cases hafter
      rfl
    | assign left_ok kind =>
      cases left_ok.symm.trans hleft''
      rw [hbeside.kind_eq, hk] at kind
      cases kind
  obtain ⟨⟨e'', after'⟩, hassignment, hsame⟩ := howned (e, after) hrun
  cases hsame
  exact bind_of_ok ((hd.rule_eq (.assignment false true none) s trivial).symm.trans hassignment)

omit hm in
theorem reaches_withDefault (hd' : Answers options' d') {start start' : Place} {id : Identifier}
    {target target' : Pattern} {r : Member × Pending} (hs : s.Beside True s')
    (hp : IsBehind pending s) (h : 8 * s.unread ≤ m)
    (hread : ShorthandProperty d start id pending s r u) (hu : u.kind.endsItem = true)
    (hdefault : WithDefault d' start' target' s' p u') :
    Reaches (withDefault d start target) s u := by
  cases hread with
  | bare =>
    have hbare : s.kind ≠ .eq := fun heq => absurd (heq ▸ hu) (by decide)
    exact ⟨_, s, WithDefault.run (.bare hbare), hs.left⟩
  | default eq value_ok =>
    cases hdefault with
    | bare bare => exact absurd (hs.kind_eq.trans eq.1) bare
    | given eq' value_ok' =>
      have hs₁ := hs.of_takes (by decide) eq eq'.2
      have hlt := unread_lt_of_takes (by decide) eq
      have hplace := place_lt_of_takes hs.placed eq (by decide) (by decide)
      have hp₁ := BareDefault.isBehind_record hp hplace
      obtain ⟨place, hplace⟩ : ∃ place, pending.record s.place = some place := by
        cases pending <;> exact ⟨_, rfl⟩
      rw [hplace] at value_ok hp₁
      have hvalue := value_of_pending hd hag hd' hs₁ hp₁ (by omega) value_ok hu value_ok'
      obtain ⟨v, hvalue', hend⟩ := hd.carries_value hs₁.left hvalue
      exact ⟨_, v, WithDefault.run (.given eq hvalue'), hend⟩

omit hd hm hag in
/-- The key of a property of a pattern stands before a colon, a default value or the end of the
item. -/
theorem kind_of_patternKey {q : PatternMember} (h : PatternProperty d' s' q u')
    (hu' : u'.kind.endsItem = true) :
    ∃ key t', PropertyName d' s' key t' ∧ (t'.kind = .colon ∨ t'.kind.closesOperand = true) := by
  cases h with
  | named key_ok colon => exact ⟨_, _, key_ok, .inl colon.1⟩
  | shorthand key_ok value_ok => cases value_ok with
    | given eq => exact ⟨_, _, key_ok, .inr (eq.1 ▸ rfl)⟩
    | bare => exact ⟨_, _, key_ok, .inr (TokenKind.closesOperand_of_endsItem hu')⟩

omit hd hm in
/-- So it is no name of a method, and none that announces an accessor. -/
theorem not_method_of_patternProperty {generator : Bool} {accessor : Option PropertyKind}
    {key : Key} {s₁ s₂ : ParseState} {f : FunctionParts} {q : PatternMember}
    (hs : s.Beside True s') (h : 8 * s.unread ≤ m) (hproperty : PatternProperty d' s' q u')
    (hu' : u'.kind.endsItem = true) (star : Eats .star generator s s₁)
    (key_ok : MemberKey d s₁ accessor key s₂) (method_ok : method d generator s₂ = .ok f u) :
    False := by
  obtain ⟨key', t', hkey', hrest⟩ := kind_of_patternKey hproperty hu'
  rcases star with ⟨-, star⟩ | ⟨-, -, rfl⟩
  · exact absurd (kind_of_propertyName hkey' (hs.kind_eq.trans star.1)) (by decide)
  have hends : ∀ {key t}, PropertyName d s₁ key t →
      t.kind = .colon ∨ t.kind.closesOperand = true := by
    intro key t hkey
    obtain ⟨-, hend⟩ := (Agreement.agrees_propertyName hag h).of_both_ok hs hkey.run hkey'.run
    rwa [← hend.kind_eq]
  cases key_ok with
  | plain key_ok =>
    obtain ⟨_, _, _, _, opening, -⟩ := of_method method_ok
    have hkind := hends key_ok
    rw [opening.1] at hkind
    exact absurd hkind (by decide)
  | accessor word_ok isAccessor key_ok =>
    rcases hends word_ok with hk | hk
    · exact absurd (kind_of_propertyName key_ok hk) (by decide)
    · rcases TokenKind.cases_of_closesOperand hk with hk | hk | hk | hk | hk | hk <;>
        exact absurd (kind_of_propertyName key_ok hk) (by decide)

theorem reaches_patternProperty (hd' : Answers options' d') {r : Member × Pending}
    {q : PatternMember} (hs : s.Beside True s') (hp : IsBehind pending s) (h : 8 * s.unread ≤ m)
    (hread : Property d pending s r u) (hu : u.kind.endsItem = true)
    (hproperty : PatternProperty d' s' q u') (hu' : u'.kind.endsItem = true) :
    Reaches (patternProperty d) s u := by
  have hkeys : ∀ {key key' t t'}, PropertyName d s key t → PropertyName d' s' key' t' →
      t.Beside True t' := by
    intro key key' t t' hkey hkey'
    exact ((Agreement.agrees_propertyName hag h).of_both_ok hs hkey.run hkey'.run).2
  cases hread with
  | method star key_ok exclusive method_ok =>
    exact (not_method_of_patternProperty hag hs h hproperty hu' star key_ok method_ok).elim
  | value key_ok colon value_ok => 
    have hf₁ := follows_of_propertyName hd.traces key_ok
    have hf₂ := hf₁.trans (follows_of_takes colon (by decide))
    have hle := unread_le_of_follows hf₂
    cases hproperty with
    | named key_ok' colon' value_ok' =>
      have hs₂ := (hkeys key_ok key_ok').of_takes (by decide) colon colon'.2
      obtain ⟨q, v, hq, hv⟩ := reaches_bindingElement hd hm hag hs₂ (hp.mono hs.placed hf₂)
        (by omega) value_ok hu value_ok' hu'
      exact ⟨_, v, (PatternProperty.named key_ok colon hq).run, hv⟩
    | shorthand key_ok' value_ok' plain =>
      exact absurd ((hkeys key_ok key_ok').kind_eq.trans colon.1) plain
  | shorthand key_ok more =>
    have hf₁ := follows_of_propertyName hd.traces key_ok
    have hle := unread_le_of_follows hf₁
    cases hproperty with
    | named key_ok' colon' value_ok' =>
      have hkind := (hkeys key_ok key_ok').kind_eq ▸ colon'.1
      cases more with
      | bare => exact absurd (hkind ▸ hu) (by decide)
      | default eq => exact absurd (hkind.symm.trans eq.1) (by decide)
    | shorthand key_ok' value_ok' plain =>
      have hs₁ := hkeys key_ok key_ok'
      obtain ⟨q, v, hq, hv⟩ := reaches_withDefault hd hag hd' hs₁ (hp.mono hs.placed hf₁)
        (by omega) more hu value_ok'
      have hplain := hs₁.kind_eq ▸ plain
      exact ⟨_, v, (PatternProperty.shorthand key_ok (of_withDefault hq) hplain).run, hv⟩

omit hd hm hag in
theorem endsItem_of_patternMembers (hd : Answers options d) {ps : List PatternMember}
    (h : d (.patternMembers false) s = .ok ps u) : s.kind.endsItem = true := by
  rw [← hd.rule_eq (.patternMembers false) s trivial] at h
  cases of_patternMembers h with
  | closed closing => rw [closing.1]; rfl
  | trailing comma | rest comma | item comma => cases comma with
    | comma comma => rw [comma.1]; rfl

omit hm hag in
/-- A brace that closes an object is all that is left of it. -/
theorem advance_of_members {r : List Member × Pending} (hk : s.kind = .braceR)
    (h : d (.members false pending) s = .ok r u) : advance s = .ok () u := by
  rw [← hd.rule_eq (.members false pending) s trivial] at h
  cases of_members h with
  | closed closing => exact closing.2
  | trailing comma => cases comma with
    | comma comma => exact absurd (hk.symm.trans comma.1) (by decide)
  | item comma item_ok more opens => exact absurd hk opens

theorem reaches_members (hd' : Answers options' d') {isFirst : Bool} {r : List Member × Pending}
    {ps : List PatternMember} (hs : s.Beside True s') (hp : IsBehind pending s)
    (h : 8 * s.unread + (if isFirst then 1 else 0) ≤ m)
    (hrun : members d isFirst pending s = .ok r u)
    (hpattern : patternMembers d' isFirst s' = .ok ps u') :
    Reaches (patternMembers d isFirst) s u := by
  cases of_members hrun with
  | closed closing =>
    have hend := hs.left.of_takes (by decide) closing closing.2
    exact ⟨_, u, (PatternMembers.closed closing).run, hend⟩
  | trailing comma closing =>
    have hend := (hs.left.of_separator comma comma).of_takes (by decide) closing closing.2
    exact ⟨_, u, (PatternMembers.trailing comma closing).run, hend⟩
  | @item s₁ member between s₂ rest after _ comma item_ok more opens goesOn =>
    have h₁ : 8 * s₁.unread + 1 ≤ m := Agreement.room_of_separator h (by decide) comma
    have hf₁ := follows_of_separator comma
    have hle₂ := unread_le_of_follows (follows_of_objectMember hd.traces item_ok)
    have hs₁ := TokenStream.isPlaced_of_follows hs.placed hf₁
    have hp₁ := hp.mono hs.placed hf₁
    have hp₂ := (BareDefault.gathers_of_objectMember hd.traces hd.holds hs₁ hp₁ item_ok).behind
    have hu₂ := endsItem_of_members hd more
    have hopen : s₁.kind ≠ .braceR := by
      cases comma with
      | first => exact opens
      | comma => exact goesOn rfl
    cases of_patternMembers hpattern with
    | closed closing => exact absurd (hs.kind_eq ▸ closing.1) opens
    | trailing comma' closing =>
      exact absurd ((hs.of_separator comma comma').kind_eq ▸ closing.1) hopen
    | rest comma' dots' rest_ok closing =>
      have hb := hs.of_separator comma comma'
      cases item_ok with
      | spread dots argument_ok =>
        obtain ⟨⟨span, q⟩, v, hq, hv⟩ := reaches_restOfBinding hd hm hag hb hp₁ (by omega) dots
          argument_ok hu₂ rest_ok (closing.1 ▸ rfl)
        have hagrees := Agreement.agrees_restOfBinding (L := beside True) dots.1
        obtain ⟨-, hend⟩ := hagrees.of_both_ok hb hq rest_ok
        have hkind : s₂.kind = .braceR := by rw [← hv.kind_eq, ← hend.kind_eq, closing.1]
        have hlast := advance_of_members hd hkind more
        obtain ⟨w, ha, hw⟩ := hv.advance (by simp [hkind]) hlast
        have hclosing : Takes .braceR v w := ⟨hv.kind_eq ▸ hkind, ha⟩
        exact ⟨_, w, (PatternMembers.rest comma dots.1 hq hclosing).run, hw⟩
      | property property_ok plain => exact absurd (hb.kind_eq ▸ dots') plain
    | item comma' item_ok' more' =>
      have hb := hs.of_separator comma comma'
      cases item_ok with
      | spread dots =>
        exact absurd (kind_of_patternProperty item_ok' (hb.kind_eq.trans dots.1)) (by decide)
      | property property_ok plain =>
        obtain ⟨q, v, hq, hv⟩ := reaches_patternProperty hd hm hag hd' hb hp₁ (by omega) property_ok
          hu₂ item_ok' (endsItem_of_patternMembers hd' more')
        have hagrees := Agreement.agrees_patternProperty hd.traces hag (s := s₁) (by omega)
        obtain ⟨-, hend⟩ := hagrees.of_both_ok hb hq item_ok'.run
        obtain ⟨u₁, more₁, hu₁⟩ := hd.carries (g := .members false _) trivial hv more
        obtain ⟨qs, w, hqs, hw⟩ := hm.members hend (hv.isBehind hp₂)
          (by rw [hv.unread_eq]; simp; omega) more₁ more'
        exact ⟨_, w, (PatternMembers.item comma (of_patternProperty hq) hqs).run, hu₁.trans hw⟩

omit hm hag in
theorem endsItem_of_parenthesized {r : List Element × Pending}
    (h : d (.parenthesized false pending) s = .ok r t) (closing : Takes .parenR t u) :
    s.kind.endsItem = true := by
  rw [← hd.rule_eq (.parenthesized false pending) s trivial] at h
  cases of_parenthesized h with
  | done => rw [closing.1]; rfl
  | rest comma | item comma => cases comma with
    | comma comma => rw [comma.1]; rfl

theorem reaches_parenthesized (hd' : Answers options' d') {isFirst : Bool}
    {r : List Element × Pending} {ps : List (Option Pattern)} (hs : s.Beside True s')
    (hp : IsBehind pending s) (h : 8 * s.unread + (if isFirst then 3 else 0) ≤ m)
    (hrun : parenthesized d isFirst pending s = .ok r t) (closing : Takes .parenR t u)
    (htargets : targets d' .parenR false false isFirst s' = .ok ps u') :
    Reaches (targets d .parenR false false isFirst) s u := by
  cases of_parenthesized hrun with
  | done =>
    have hend := hs.left.of_takes (by decide) closing closing.2
    exact ⟨_, u, (Targets.closed closing).run (.inl rfl), hend⟩
  | rest comma dots rest_ok =>
    have hagrees := Agreement.agrees_restOfBinding (L := beside False) dots
    obtain ⟨-, hend⟩ := hagrees.of_both_ok (hs.left.of_separator comma comma) rest_ok rest_ok
    have hlast := hend.of_takes (by decide) closing closing.2
    exact ⟨_, u, (Targets.rest comma dots rest_ok closing).run (.inl rfl), hlast⟩
  | @item s₁ value between s₂ rest after _ comma item_ok more opens plain =>
    have h₁ : 8 * s₁.unread + 3 ≤ m := Agreement.room_of_separator h (by decide) comma
    have hf₁ := follows_of_separator comma
    have hle₂ := unread_le_of_follows (follows_of_goal hd.traces item_ok trivial)
    have hs₁ := TokenStream.isPlaced_of_follows hs.placed hf₁
    have hp₁ := hp.mono hs.placed hf₁
    have hp₂ := (BareDefault.gathers_of_value hd.holds hs₁ hp₁ item_ok).1.behind
    have hu₂ := endsItem_of_parenthesized hd more closing
    cases of_targets htargets with
    | closed closing' => exact absurd (hs.kind_eq ▸ closing'.1) opens
    | trailing _ _ allowed => cases allowed
    | hole _ _ _ allowed => cases allowed
    | rest comma' dots' =>
      exact absurd ((hs.of_separator comma comma').kind_eq ▸ dots') plain
    | item comma' item_ok' more' =>
      have hb := hs.of_separator comma comma'
      obtain ⟨q, v, hq, hv⟩ := reaches_bindingElement hd hm hag hb hp₁ (by omega) item_ok hu₂
        item_ok' (endsItem_of_targets hd' (.inl rfl) more')
      have hagrees := Agreement.agrees_bindingElement hd.traces hag (s := s₁) (by omega)
      obtain ⟨-, hend⟩ := hagrees.of_both_ok hb hq item_ok'
      obtain ⟨t₁, more₁, ht₁⟩ := hd.carries (g := .parenthesized false _) trivial hv more
      obtain ⟨u₁, ha, hu₁⟩ := ht₁.advance (by simp [closing.1]) closing.2
      have closing₁ : Takes .parenR t₁ u₁ := ⟨ht₁.kind_eq.trans closing.1, ha⟩
      obtain ⟨qs, w, hqs, hw⟩ := hm.parenthesized hend (hv.isBehind hp₂)
        (by rw [hv.unread_eq]; simp; omega) more₁ closing₁ more'
      exact ⟨_, w, (Targets.item comma hq hqs).run (.inl rfl), hu₁.trans hw⟩

end Admitted

/-- Where strict and sloppy answers agree on goals worth less than `m`, lists worth less than that
are admitted. -/
theorem admits (hd : Answers options d) (hd' : Answers options' d')
    (hag : ∀ {g g' : Goal} {R : g.Result → g'.Result → Prop} {s : ParseState},
      Goal.Alike (beside True).toCorrespondence g g' R → 8 * s.unread + g.rank < m →
        Agrees (beside True) R (d g) (d' g') s) : Admits d d' m := by
  induction m with
  | zero => exact ⟨nofun, nofun, nofun⟩
  | succ m ih =>
    have hbelow : ∀ {g g' : Goal} {R : g.Result → g'.Result → Prop} {s : ParseState},
        Goal.Alike (beside True).toCorrespondence g g' R → 8 * s.unread + g.rank < m →
          Agrees (beside True) R (d g) (d' g') s :=
      fun hself hlt => hag hself (Nat.lt_succ_of_lt hlt)
    have hm := ih hbelow
    constructor
    · intro s s' u u' pending isFirst r ps hs hp h hrun htargets
      rw [← hd.rule_eq (.elements .bracketR true true isFirst pending) s nofun] at hrun
      rw [← hd'.rule_eq (.targets .bracketR true true isFirst) s' nofun] at htargets
      rw [Reaches, ← hd.rule_eq (.targets .bracketR true true isFirst) s nofun]
      exact reaches_elements hd hm hbelow hd' hs hp (Nat.le_of_lt_succ h) hrun htargets
    · intro s s' u u' pending isFirst r ps hs hp h hrun hpattern
      rw [← hd.rule_eq (.members isFirst pending) s trivial] at hrun
      rw [← hd'.rule_eq (.patternMembers isFirst) s' trivial] at hpattern
      rw [Reaches, ← hd.rule_eq (.patternMembers isFirst) s trivial]
      exact reaches_members hd hm hbelow hd' hs hp (Nat.le_of_lt_succ h) hrun hpattern
    · intro s s' t u u' pending isFirst r ps hs hp h hrun closing htargets
      rw [← hd.rule_eq (.parenthesized isFirst pending) s trivial] at hrun
      rw [← hd'.rule_eq (.targets .parenR false false isFirst) s' nofun] at htargets
      rw [Reaches, ← hd.rule_eq (.targets .parenR false false isFirst) s nofun]
      exact reaches_parenthesized hd hm hbelow hd' hs hp (Nat.le_of_lt_succ h) hrun closing
        htargets

end Grammar

end EcmaTree
