import EcmaTree.Proofs.Grammar.Assignable.Suspended
import EcmaTree.Proofs.Grammar.Scope

/-!
# Targets read as expressions

A target that the binding grammar has read is read as an expression too, and that expression
becomes the target, provided that it stands alone where a default is pending. Two runs take part,
which begin beside each other: the one that reads the target, and the one that reads the
expression. Only a shorthand with a default value leaves a default pending.
-/

namespace EcmaTree

open EcmaTree.Parser EcmaTree.Grammar EcmaTree.Reading EcmaTree.Trail ParseState Node

/-- The node becomes a target that sloppy code may assign to. -/
structure BecomesTarget {c c' : Category} (n : Node c) (p : Node c') : Prop where
  converts : Converts false n p
  passes : p.checkTargets false false none = .ok () none

namespace BecomesTarget

variable {c c' : Category} {e : Expression} {p : Pattern}

theorem name (id : Identifier) : BecomesTarget (.identifier id) (.namePattern id) :=
  ⟨.name id, rfl⟩

theorem array {span : Span} {es : Node (.list (.option .element))}
    {ps : Node (.list (.option .pattern))} (h : BecomesTarget es ps) :
    BecomesTarget (.array span es) (.arrayPattern span ps) :=
  ⟨.array h.converts, h.passes⟩

theorem object {span : Span} {ms : Node (.list .member)} {ps : Node (.list .patternMember)}
    (h : BecomesTarget ms ps) : BecomesTarget (.object span ms) (.objectPattern span ps) :=
  ⟨.object h.converts, h.passes⟩

theorem default {span : Span} {value : Expression} (h : BecomesTarget e p) :
    BecomesTarget (.assignment span .assign p value) (.defaultPattern span p value) :=
  ⟨.default span p value, h.passes⟩

theorem item (h : BecomesTarget e p) : BecomesTarget (.item e) p :=
  ⟨.item h.converts, h.passes⟩

theorem spread {span : Span} {id : Identifier} (h : BecomesTarget e (.namePattern id)) :
    BecomesTarget (.spread span e) (.restPattern span (.namePattern id)) :=
  ⟨.spread h.converts rfl, rfl⟩

theorem property {span : Span} {key : Key} {method shorthand : Bool} (h : BecomesTarget e p) :
    BecomesTarget (.property span key e .init method shorthand)
      (.propertyPattern span key p shorthand) :=
  ⟨.property h.converts, h.passes⟩

theorem nil : BecomesTarget (.nil : Node (.list c)) (.nil : Node (.list c')) :=
  ⟨.nil, rfl⟩

theorem cons {x : Node c} {y : Node c'} {xs : Node (.list c)} {ys : Node (.list c')}
    (head : BecomesTarget x y) (tail : BecomesTarget xs ys) (last : y.isRest = true → ys = .nil) :
    BecomesTarget (.cons x xs) (.cons y ys) := by
  refine ⟨.cons head.converts tail.converts last, ?_⟩
  change EStateM.bind _ _ none = _
  unfold EStateM.bind
  rw [head.passes]
  exact tail.passes

theorem hole : BecomesTarget (.absent : Node (.option c)) (.absent : Node (.option c')) :=
  ⟨.hole, rfl⟩

theorem present {x : Node c} {y : Node c'} (h : BecomesTarget x y) :
    BecomesTarget (.present x) (.present y) :=
  ⟨.present h.converts, h.passes⟩

theorem check (h : BecomesTarget e p) : (Pattern.check false false none p).1 = .ok () := by
  unfold Pattern.check
  rw [h.passes]

end BecomesTarget

/-- At `s` targets are read, and at `s'` beside it expressions, in sloppy code that is not that of
a generator. -/
structure ParseState.Accompanies (q : Pending) (s s' : ParseState) : Prop where
  beside : s.Beside False s'
  behind : IsBehind q s'
  sloppy : s'.scope.strict = false
  plain : s'.scope.inGenerator = false

namespace ParseState.Accompanies

variable {q after : Pending} {s s' t t' : ParseState}

theorem next (h : Accompanies q s s') (hend : t.Beside False t') (hscope : t'.scope = s'.scope)
    (hbehind : IsBehind after t') : Accompanies after t t' :=
  ⟨hend, hbehind, hscope ▸ h.sloppy, hscope ▸ h.plain⟩

theorem exists_of_takes {k : TokenKind} (h : Accompanies q s s') (hk : k ≠ .eof)
    (ht : Takes k s t) : ∃ t', Takes k s' t' ∧ Accompanies q t t' := by
  obtain ⟨t', ht', hend⟩ := h.beside.exists_of_takes hk ht
  have hbehind := h.behind.mono h.beside.right.placed (follows_of_takes ht' hk)
  exact ⟨t', ht', h.next hend (keeps_advance.scope_eq ht'.2) hbehind⟩

theorem exists_of_separator {isFirst : Bool} (h : Accompanies q s s')
    (hs : Separator isFirst s t) : ∃ t', Separator isFirst s' t' ∧ Accompanies q t t' := by
  cases hs with
  | first => exact ⟨s', .first _, h⟩
  | comma comma =>
    obtain ⟨t', ht', hnext⟩ := h.exists_of_takes (by decide) comma
    exact ⟨t', .comma ht', hnext⟩

end ParseState.Accompanies

namespace Grammar

variable {options : ParseOptions} {d : Descent} {ts : List Token} {opening : Place} {m : Nat}
  {s s' u : ParseState} {x : Token} {q : Pending} {e : Expression} {p : Pattern}

/-- A name that is marked as the possible beginning of an arrow function is left behind like one
that is not. -/
theorem advance_markArrow (hs : s.Beside False s') (hk : s.kind = .name)
    (ha : advance s = .ok () u) : ∃ u', advance s'.markArrow = .ok () u' ∧ u.Beside False u' := by
  obtain ⟨stream, hstream, rfl⟩ := advance_eq_ok.mp ha
  have hmark : s'.markArrow = { s' with arrowStart := some s'.place.offset } :=
    if_pos (.inr (hs.kind_eq.trans hk))
  refine ⟨{ s'.markArrow with stream := stream }, advance_eq_ok.mpr ⟨stream, ?_, rfl⟩, ?_⟩
  · rw [stream_markArrow, hs.stream_eq, hstream]
  · rw [hmark]
    refine hs.of_wide_step ⟨by simp [hk], hstream⟩ (by simp [hk]) hs.mark_le ?_
    rintro _ ⟨⟩
    exact Nat.le_of_eq (congrArg Place.offset hs.place_eq)

/-- On goals worth less than `m` targets that stand alone are read as expressions that become
them. -/
structure Expresses (d : Descent) (ts : List Token) (opening : Place) (m : Nat) : Prop where
  elements : ∀ {s s' u isFirst q ps}, Accompanies q s s' →
    (isFirst = true → ∃ x, s.ComesBehind opening x) →
    8 * s.unread + (if isFirst then 3 else 0) < m → u.stream.seen <+: ts →
    (ofHoleyList ps).StandsAlone ts opening →
    d (.targets .bracketR true true isFirst) s = .ok ps u →
    ∃ es after u', d (.elements .bracketR true true isFirst q) s' = .ok (es, after) u' ∧
      BecomesTarget (ofHoleyList es) (ofHoleyList ps) ∧ u.Beside False u'
  members : ∀ {s s' u isFirst q ps}, Accompanies q s s' →
    8 * s.unread + (if isFirst then 1 else 0) < m → u.stream.seen <+: ts →
    (ofList ps).StandsAlone ts opening →
    d (.patternMembers isFirst) s = .ok ps u →
    ∃ ms after u', d (.members isFirst q) s' = .ok (ms, after) u' ∧
      BecomesTarget (ofList ms) (ofList ps) ∧ u.Beside False u'

section Expressed

/- The tokens stand one behind the other, answers for expressions keep the scope, and targets that
are worth less than `m` are read as expressions. -/
variable (ho : AreOrdered ts) (hd : Answers options d)
  (hc : ∀ g : Goal, ¬g.IsStatement → Keeps (d g)) (hm : Expresses d ts opening m)

include hd hm

/-- A target without a default value. -/
theorem expresses_bindingAtom (noIn : Bool) (h : Accompanies q s s')
    (hplain : ¬IsParenthesized ts opening s.place) (hle : 8 * s.unread ≤ m)
    (hatom : BindingAtom d s p u) (hk : u.kind.closesOperand = true) (hseen : u.stream.seen <+: ts)
    (hp : p.StandsAlone ts opening) :
    ∃ e after u', conditional d noIn q s'.markArrow = .ok (e, after) u' ∧ BecomesTarget e p ∧
      u.Beside False u' := by
  cases hatom with
  | @name id _ name_ok =>
    obtain ⟨name, hv, hkind, ha, rfl⟩ := of_identifier name_ok
    have hkind : s.kind = .name := by simpa using hkind
    obtain ⟨u', ha', hend⟩ := advance_markArrow h.beside hkind ha
    have hkind' : s'.markArrow.kind = .name := by rw [kind_markArrow, h.beside.kind_eq, hkind]
    have hv' : s'.markArrow.stream.token.value = .name name := by
      rw [stream_markArrow, h.beside.stream_eq, hv]
    have hname := identifier_run hv' hkind' ha'
    rw [hend.spanFrom_eq, place_markArrow, h.beside.place_eq] at hname
    have hno : u'.kind ≠ .arrow := by
      rw [hend.kind_eq]
      intro harrow
      rw [harrow] at hk
      cases hk
    have hprimary : primary d q s'.markArrow =
        .ok (.identifier ⟨u.spanFrom s.place, name⟩, q) u' := by
      simp [primary, hkind', nameOrArrow, hname, hno]
    refine ⟨_, q, u', conditional_of_primary hd ?_ hprimary (hend.kind_eq ▸ hk), .name _, hend⟩
    rw [hkind']
    rfl
  | @array s₁ ps _ bracket items =>
    obtain ⟨s₁', bracket', h₁⟩ := h.exists_of_takes (by decide) bracket
    have hlt := unread_lt_of_takes (by decide) bracket
    rw [← start_spanFrom u s.place] at hplain
    have hbehind : ∃ x, s₁.ComesBehind opening x :=
      ⟨_, comesBehind_of_takes h.beside.placed bracket (by decide) (by decide) (by decide)⟩
    obtain ⟨es, after, u', hread, hbecomes, hend⟩ := hm.elements h₁ (fun _ => hbehind)
      (by rw [if_pos rfl]; omega) hseen (hp.parts_of_pattern hplain _ List.mem_cons_self) items
    have hprimary := (array_eq_ok bracket'.1).mpr ⟨s₁', es, after, bracket'.2, hread, rfl⟩
    rw [hend.spanFrom_eq, h.beside.place_eq] at hprimary
    have hmark : s'.markArrow = s' :=
      markArrow_eq_self (by simp [bracket'.1]) (by simp [bracket'.1])
    rw [hmark]
    refine ⟨_, after, u', conditional_of_primary hd ?_ hprimary (hend.kind_eq ▸ hk),
      hbecomes.array, hend⟩
    rw [bracket'.1]
    rfl
  | @object s₁ ps _ brace items =>
    obtain ⟨s₁', brace', h₁⟩ := h.exists_of_takes (by decide) brace
    have hlt := unread_lt_of_takes (by decide) brace
    rw [← start_spanFrom u s.place] at hplain
    obtain ⟨ms, after, u', hread, hbecomes, hend⟩ := hm.members h₁
      (by rw [if_pos rfl]; omega) hseen (hp.parts_of_pattern hplain _ List.mem_cons_self) items
    have hprimary := (object_eq_ok brace'.1).mpr ⟨s₁', ms, after, brace'.2, hread, rfl⟩
    rw [hend.spanFrom_eq, h.beside.place_eq] at hprimary
    have hmark : s'.markArrow = s' := markArrow_eq_self (by simp [brace'.1]) (by simp [brace'.1])
    rw [hmark]
    refine ⟨_, after, u', conditional_of_primary hd ?_ hprimary (hend.kind_eq ▸ hk),
      hbecomes.object, hend⟩
    rw [brace'.1]
    rfl

include ho hc

/-- The assignment or the target that an item of a list is. -/
theorem expresses_bindingElement (h : Accompanies q s s') (hx : s.ComesBehind opening x)
    (hle : 8 * s.unread ≤ m) (hrun : bindingElement d s = .ok p u) (hu : u.kind.endsItem = true)
    (hseen : u.stream.seen <+: ts) (hp : p.StandsAlone ts opening) :
    ∃ e after u', d (.assignment false false q) s' = .ok (e, after) u' ∧ BecomesTarget e p ∧
      Accompanies after u u' := by
  suffices hread : ∃ e after u', assignment d false false q s' = .ok (e, after) u' ∧
      BecomesTarget e p ∧ u.Beside False u' by
    obtain ⟨e, after, u', hread, hbecomes, hend⟩ := hread
    have hanswer := (hd.rule_eq (.assignment false false q) s' trivial).symm.trans hread
    have hg := BareDefault.gathers_of_value hd.holds h.beside.right.placed h.behind hanswer
    exact ⟨e, after, u', hanswer, hbecomes,
      h.next hend ((Scope.keeps_assignment hc).scope_eq hread) hg.1.behind⟩
  have hyield : ¬(s'.scope.inGenerator = true ∧ s'.isWord "yield" = true) := by simp [h.plain]
  have hseen₀ := seen_of_follows (follows_of_bindingElement hd.traces hrun) hseen
  have hplain : ¬IsParenthesized ts opening s.place := by
    apply not_isParenthesized ho h.beside.placed hx _ _ hseen₀ <;>
      rcases kind_of_bindingElement hrun with hk | hk | hk <;> simp [hk]
  obtain ⟨target, t, hatom, hdefault⟩ := of_bindingElement hrun
  cases hdefault with
  | bare =>
    obtain ⟨e, after, u', hleft, hbecomes, hend⟩ := expresses_bindingAtom hd hm false h hplain hle
      hatom (TokenKind.closesOperand_of_endsItem hu) hseen hp
    have hlast := TokenKind.not_isAssignment_of_endsItem (hend.kind_eq ▸ hu)
    exact ⟨e, after, u', assignment_plain hyield hleft hlast, hbecomes, hend⟩
  | @given t₁ value _ eq value_ok =>
    have hf := (follows_of_takes eq (by decide)).trans (follows_of_value hd.traces value_ok)
    rw [← start_spanFrom u s.place] at hplain
    have htarget := hp.parts_of_pattern hplain _ List.mem_cons_self
    rw [start_spanFrom] at hplain
    obtain ⟨e, between, t', hleft, hbecomes, hend⟩ := expresses_bindingAtom hd hm false h hplain
      hle hatom (by rw [eq.1]; rfl) (seen_of_follows hf hseen) htarget
    obtain ⟨t₁', eq', hend₁⟩ := hend.exists_of_takes (by decide) eq
    obtain ⟨u', hvalue, hend₂⟩ := hd.carries_value hend₁ value_ok
    have hstrict : t'.scope.strict = false := by
      rw [(Scope.keeps_conditional hc).scope_eq hleft, scope_markArrow, h.sloppy]
    have hassign : assignment d false false q s' = .ok (_, _) u' :=
      assignment_assign hyield hleft (by rw [eq'.1]; rfl) (operatorOf_of_eq hend.right.placed eq'.1)
        (absurd rfl) (toPattern_eq_ok_iff.mpr hbecomes.converts) (hstrict ▸ hbecomes.check) eq'.2
        hvalue
    rw [hend₂.spanFrom_eq, h.beside.place_eq] at hassign
    exact ⟨_, _, u', hassign, hbecomes.default, hend₂⟩

/-- A rest gathers into a name. -/
theorem expresses_rest {span : Span} {argument : Pattern} (h : Accompanies q s s')
    (hle : 8 * s.unread ≤ m) (dots : s.kind = .ellipsis)
    (hrun : restOfBinding s = .ok (span, argument) u) (hu : u.kind.endsItem = true)
    (hseen : u.stream.seen <+: ts) :
    ∃ element after u', ListElement d true q s' (some element, after) u' ∧
      BecomesTarget element (.restPattern span argument) ∧ Accompanies after u u' := by
  obtain ⟨s₁, id, ha, hid, heq⟩ := of_restOfBinding hrun
  obtain ⟨rfl, rfl⟩ := Prod.mk.inj heq
  obtain ⟨s₁', dots', h₁⟩ := h.exists_of_takes (by decide) ⟨dots, ha⟩
  have hlt := unread_lt_of_takes (by decide) ⟨dots, ha⟩
  have hbehind : s₁.ComesBehind opening s.stream.token :=
    comesBehind_of_takes h.beside.placed ⟨dots, ha⟩ (by decide) (by decide) (by decide)
  have hbare : u.kind ≠ .eq := TokenKind.ne_eq_of_endsItem hu
  obtain ⟨e, after, u', hread, hbecomes, hnext⟩ := expresses_bindingElement ho hd hc hm h₁ hbehind
    (by omega) (bindingElement_run (.name hid) (.bare hbare)) hu hseen (.whole rfl rfl nofun)
  have hitem : ListElement d true q s' _ u' := .spread dots' hread
  rw [hnext.beside.spanFrom_eq, h.beside.place_eq] at hitem
  exact ⟨_, after, u', hitem, hbecomes.spread, hnext⟩

theorem expresses_elements {isFirst : Bool} {ps : List (Option Pattern)} (h : Accompanies q s s')
    (hx : isFirst = true → ∃ x, s.ComesBehind opening x)
    (hle : 8 * s.unread + (if isFirst then 3 else 0) ≤ m)
    (hrun : targets d .bracketR true true isFirst s = .ok ps u) (hseen : u.stream.seen <+: ts)
    (hp : (ofHoleyList ps).StandsAlone ts opening) :
    ∃ es after u', elements d .bracketR true true isFirst q s' = .ok (es, after) u' ∧
      BecomesTarget (ofHoleyList es) (ofHoleyList ps) ∧ u.Beside False u' := by
  cases of_targets hrun with
  | closed closing =>
    obtain ⟨u', closing', hend⟩ := h.beside.exists_of_takes (by decide) closing
    exact ⟨[], q, u', (Elements.closed closing').run, .nil, hend⟩
  | trailing comma closing =>
    obtain ⟨s₁', comma', h₁⟩ := h.exists_of_separator comma
    obtain ⟨u', closing', hend⟩ := h₁.beside.exists_of_takes (by decide) closing
    exact ⟨[], q, u', (Elements.trailing comma' closing').run, .nil, hend⟩
  | @hole s₁ rest _ comma next more =>
    obtain ⟨s₁', comma', h₁⟩ := h.exists_of_separator comma
    have hle₁ : 8 * s₁.unread + 3 ≤ m := Agreement.room_of_separator hle (by decide) comma
    obtain ⟨es, after, u', hread, hbecomes, hend⟩ :=
      hm.elements h₁ (by nofun) (by simp; omega) hseen (StandsAlone.cons_iff.mp hp).2 more
    have hnext := h₁.beside.kind_eq.trans next
    have hopen : s₁'.kind ≠ .bracketR := by simp [hnext]
    exact ⟨none :: es, after, u', (Elements.item comma' (.hole rfl hnext) hread
      (comma'.kind_ne (by decide) hopen) fun _ _ => hopen).run, .cons .hole hbecomes nofun, hend⟩
  | @rest s₁ span argument s₂ _ comma dots rest_ok closing =>
    obtain ⟨s₁', comma', h₁⟩ := h.exists_of_separator comma
    have hle₁ : 8 * s₁.unread + 3 ≤ m := Agreement.room_of_separator hle (by decide) comma
    have hseen₂ := seen_of_follows (follows_of_takes closing (by decide)) hseen
    obtain ⟨element, after, s₂', hitem, hbecomes, h₂⟩ := expresses_rest ho hd hc hm h₁ (by omega)
      dots rest_ok (by rw [closing.1]; rfl) hseen₂
    obtain ⟨u', closing', hend⟩ := h₂.beside.exists_of_takes (by decide) closing
    have hread : d (.elements .bracketR true true false after) s₂' = .ok ([], after) u' := by
      rw [← hd.rule_eq (.elements .bracketR true true false after) s₂' nofun]
      exact (Elements.closed closing').run
    have hopen : s₁'.kind ≠ .bracketR := by simp [h₁.beside.kind_eq, dots]
    exact ⟨[some element], after, u', (Elements.item comma' hitem hread
      (comma'.kind_ne (by decide) hopen) fun _ _ => hopen).run,
      .cons (.present hbecomes) .nil fun _ => rfl, hend⟩
  | @item s₁ p s₂ rest _ comma item_ok more =>
    obtain ⟨s₁', comma', h₁⟩ := h.exists_of_separator comma
    have hle₁ : 8 * s₁.unread + 3 ≤ m := Agreement.room_of_separator hle (by decide) comma
    have hle₂ := unread_le_of_follows (follows_of_bindingElement hd.traces item_ok)
    have hseen₂ := seen_of_follows (follows_of_goal hd.traces more nofun) hseen
    obtain ⟨x, hx₁⟩ := comesBehind_of_separator h.beside.placed hx comma
    obtain ⟨hhead, htail⟩ := StandsAlone.cons_iff.mp hp
    obtain ⟨e, between, s₂', hitem, hbecomes, h₂⟩ := expresses_bindingElement ho hd hc hm h₁ hx₁
      (by omega) item_ok (endsItem_of_targets hd (.inr rfl) more) hseen₂
      (StandsAlone.present_iff.mp hhead)
    obtain ⟨es, after, u', hread, hrest, hend⟩ :=
      hm.elements h₂ (by nofun) (by simp; omega) hseen htail more
    have hkind : s₁'.kind ≠ .bracketR ∧ s₁'.kind ≠ .ellipsis ∧ s₁'.kind ≠ .comma := by
      rw [h₁.beside.kind_eq]
      rcases kind_of_bindingElement item_ok with hk | hk | hk <;> simp [hk]
    obtain ⟨hopen, hplain, hpresent⟩ := hkind
    exact ⟨some (.item e) :: es, after, u', (Elements.item comma'
      (.item hitem hplain fun _ => hpresent) hread (comma'.kind_ne (by decide) hopen)
      fun _ _ => hopen).run, .cons (.present hbecomes.item) hrest fun hrest =>
        absurd (hbecomes.converts.not_isRest.symm.trans hrest) nofun, hend⟩

omit hm in
/-- A shorthand. Its default value is read with a default pending. -/
theorem expresses_shorthand {start : Place} {id : Identifier} (h : Accompanies q s s')
    (hread : WithDefault d start (.namePattern id) s p u) (hu : u.kind.endsItem = true)
    (hseen : u.stream.seen <+: ts) (hp : ∀ v ∈ p.defaultValue, v.2.StandsAlone ts opening) :
    ∃ member after u', ShorthandProperty d start id q s' (member, after) u' ∧
      BecomesTarget member (.propertyPattern (u.spanFrom start) (.nameKey id) p true) ∧
      Accompanies after u u' := by
  cases hread with
  | bare =>
    have hread : ShorthandProperty d start id q s' _ s' := .bare
    rw [h.beside.spanFrom_eq] at hread
    exact ⟨_, q, s', hread, (BecomesTarget.name id).property, h⟩
  | @given s₁ value _ eq value_ok =>
    obtain ⟨s₁', eq', h₁⟩ := h.exists_of_takes (by decide) eq
    have hs' := h.beside.right.placed
    have hplace := place_lt_of_takes hs' eq' (by decide) (by decide)
    have hp₁ := BareDefault.isBehind_record h.behind hplace
    obtain ⟨place, hrecord⟩ : ∃ place, q.record s'.place = some place := by
      cases q <;> exact ⟨_, rfl⟩
    rw [hrecord] at hp₁
    obtain ⟨settled, hvalue⟩ := of_value value_ok
    obtain ⟨u', hvalue', hend⟩ := hd.carries (g := .assignment false true none) trivial h₁.beside
      hvalue
    have hpending := (suspends ho hd).assignment h₁.beside.right.placed hp₁
      (comesBehind_of_takes hs' eq' (by decide) (by decide) (by decide)) (Nat.lt_succ_self _)
      (hend.kind_eq ▸ hu) (hend.stream_eq ▸ hseen) (hp _ List.mem_cons_self) hvalue'
    have hnext : Accompanies (some place) u u' := by
      have hkeeps : Keeps (d (.assignment false false (some place))) := hc _ fun h => h
      refine h₁.next hend (hkeeps.scope_eq hpending) ?_
      exact hp₁.mono h₁.beside.right.placed (follows_of_goal hd.traces hpending trivial)
    rw [← hrecord] at hpending
    have hread : ShorthandProperty d start id q s' _ u' := .default eq' hpending
    rw [hend.spanFrom_eq, hrecord] at hread
    exact ⟨_, some place, u', hread, (BecomesTarget.name id).default.property, hnext⟩

theorem expresses_property {member : PatternMember} (h : Accompanies q s s')
    (hle : 8 * s.unread ≤ m) (hread : PatternProperty d s member u) (hu : u.kind.endsItem = true)
    (hseen : u.stream.seen <+: ts) (hp : member.StandsAlone ts opening) :
    ∃ property after u', Property d q s' (property, after) u' ∧ BecomesTarget property member ∧
      Accompanies after u u' := by
  obtain ⟨-, parts⟩ := hp.parts_of_ne nofun nofun
  have hkey : ∀ {key t}, PropertyName d s key t →
      ∃ t', PropertyName d s' key t' ∧ Accompanies q t t' := by
    intro key t key_ok
    obtain ⟨t', key_ok', hend⟩ := hd.carries_propertyName h.beside key_ok
    have hf := follows_of_propertyName hd.traces key_ok'
    exact ⟨t', key_ok', h.next hend ((Scope.keeps_propertyName hc).scope_eq key_ok'.run)
      (h.behind.mono h.beside.right.placed hf)⟩
  cases hread with
  | @named key s₁ s₂ value _ key_ok colon value_ok =>
    obtain ⟨s₁', key_ok', h₁⟩ := hkey key_ok
    obtain ⟨s₂', colon', h₂⟩ := h₁.exists_of_takes (by decide) colon
    have hle₁ := unread_le_of_follows (follows_of_propertyName hd.traces key_ok)
    have hlt₂ := unread_lt_of_takes (by decide) colon
    have hbehind : s₂.ComesBehind opening s₁.stream.token :=
      comesBehind_of_takes h₁.beside.placed colon (by decide) (by decide) (by decide)
    obtain ⟨e, after, u', hitem, hbecomes, hnext⟩ := expresses_bindingElement ho hd hc hm h₂ hbehind
      (by omega) value_ok hu hseen (parts _ List.mem_cons_self)
    have hproperty : Property d q s' _ u' := .value key_ok' colon' hitem
    rw [hnext.beside.spanFrom_eq, h.beside.place_eq] at hproperty
    exact ⟨_, after, u', hproperty, hbecomes.property, hnext⟩
  | @shorthand id s₁ value _ key_ok value_ok plain =>
    obtain ⟨s₁', key_ok', h₁⟩ := hkey key_ok
    obtain ⟨property, after, u', hmore, hbecomes, hnext⟩ := expresses_shorthand ho hd hc h₁ value_ok
      hu hseen fun v hv => parts v (List.mem_cons_of_mem _ hv)
    rw [← h.beside.place_eq] at hmore
    exact ⟨property, after, u', .shorthand key_ok' hmore, hbecomes, hnext⟩

theorem expresses_members {isFirst : Bool} {ps : List PatternMember} (h : Accompanies q s s')
    (hle : 8 * s.unread + (if isFirst then 1 else 0) ≤ m)
    (hrun : patternMembers d isFirst s = .ok ps u) (hseen : u.stream.seen <+: ts)
    (hp : (ofList ps).StandsAlone ts opening) :
    ∃ ms after u', members d isFirst q s' = .ok (ms, after) u' ∧
      BecomesTarget (ofList ms) (ofList ps) ∧ u.Beside False u' := by
  have hkind : ∀ {u'} t between rest, d (.members false between) t = .ok rest u' →
      t.kind = .comma ∨ t.kind = .braceR := fun t between rest => kind_of_members hd
  cases of_patternMembers hrun with
  | closed closing =>
    obtain ⟨u', closing', hend⟩ := h.beside.exists_of_takes (by decide) closing
    exact ⟨[], q, u', (Members.closed closing').run hkind, .nil, hend⟩
  | trailing comma closing =>
    obtain ⟨s₁', comma', h₁⟩ := h.exists_of_separator comma
    obtain ⟨u', closing', hend⟩ := h₁.beside.exists_of_takes (by decide) closing
    exact ⟨[], q, u', (Members.trailing comma' closing').run hkind, .nil, hend⟩
  | rest =>
    obtain ⟨hlisted, -⟩ := (StandsAlone.cons_iff.mp hp).1.parts_of_ne nofun nofun
    cases hlisted
  | @item s₁ member s₂ rest _ comma item_ok more =>
    obtain ⟨s₁', comma', h₁⟩ := h.exists_of_separator comma
    have hle₁ : 8 * s₁.unread + 1 ≤ m := Agreement.room_of_separator hle (by decide) comma
    have hle₂ := unread_le_of_follows (follows_of_patternProperty hd.traces item_ok)
    have hseen₂ := seen_of_follows (follows_of_goal hd.traces more trivial) hseen
    obtain ⟨hhead, htail⟩ := StandsAlone.cons_iff.mp hp
    obtain ⟨property, between, s₂', hproperty, hbecomes, h₂⟩ := expresses_property ho hd hc hm h₁
      (by omega) item_ok (endsItem_of_patternMembers hd more) hseen₂ hhead
    obtain ⟨ms, after, u', hread, hrest, hend⟩ := hm.members h₂ (by simp; omega) hseen htail more
    have hopen : s₁'.kind ≠ .braceR := fun hk =>
      absurd (kind_of_patternProperty item_ok (h₁.beside.kind_eq.symm.trans hk)) (by decide)
    have hplain : s₁'.kind ≠ .ellipsis := fun hk =>
      absurd (kind_of_patternProperty item_ok (h₁.beside.kind_eq.symm.trans hk)) (by decide)
    have hmembers := Members.item comma' (.property hproperty hplain) hread
      (comma'.kind_ne (by decide) hopen) fun _ => hopen
    refine ⟨property :: ms, after, u', hmembers.run hkind, .cons hbecomes hrest ?_, hend⟩
    exact fun hrest => absurd (hbecomes.converts.not_isRest_member.symm.trans hrest) nofun

end Expressed

/-- Targets that stand alone are read as expressions, whatever they are worth. -/
theorem expresses (ho : AreOrdered ts) (hd : Answers options d)
    (hc : ∀ g : Goal, ¬g.IsStatement → Keeps (d g)) : Expresses d ts opening m := by
  induction m with
  | zero => exact ⟨nofun, nofun⟩
  | succ m ih =>
    constructor
    · intro s s' u isFirst q ps h hx hlt hseen hp hrun
      rw [← hd.rule_eq (.targets .bracketR true true isFirst) s nofun] at hrun
      simp only [← hd.rule_eq (.elements .bracketR true true isFirst q) s' nofun]
      exact expresses_elements ho hd hc ih h hx (Nat.le_of_lt_succ hlt) hrun hseen hp
    · intro s s' u isFirst q ps h hlt hseen hp hrun
      rw [← hd.rule_eq (.patternMembers isFirst) s trivial] at hrun
      simp only [← hd.rule_eq (.members isFirst q) s' trivial]
      exact expresses_members ho hd hc ih h (Nat.le_of_lt_succ hlt) hrun hseen hp

end Grammar

end EcmaTree
