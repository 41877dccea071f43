import EcmaTree.Proofs.Grammar.BareDefault.Opens
import EcmaTree.Proofs.Grammar.Liberty.Basic
import EcmaTree.Proofs.Grammar.Nesting.Basic

/-!
# Reading converted targets again

What was read as an expression and converted to a target that takes no liberty is read as the same
target by the binding grammar. Two runs take part, which begin beside each other: the one that
read the expression, and the one that reads the target.
-/

namespace EcmaTree

open EcmaTree.Parser EcmaTree.Grammar EcmaTree.Reading EcmaTree.Trail ParseState Node

/-- A rule answers `a` from `s` on, and comes to the token at which `u` stands. -/
def Parser.Reads {α : Type} (q : Parser α) (s : ParseState) (a : α) (u : ParseState) : Prop :=
  ∃ u', q s = .ok a u' ∧ u.Beside False u'

/-- The items of a converted list are converted one by one. -/
theorem Converts.of_cons {isBinding : Bool} {c c' : Category} {x : Option (Node c)}
    {xs : List (Option (Node c))} {qs : List (Option (Node c'))}
    (h : Converts isBinding (ofHoleyList (x :: xs)) (ofHoleyList qs)) :
    ∃ y ys, qs = y :: ys ∧ Option.Rel (fun x y => Converts isBinding x y) x y ∧
      Converts isBinding (ofHoleyList xs) (ofHoleyList ys) ∧
      ∀ z, y = some z → z.isRest = true → ys = [] := by
  cases qs with
  | nil => cases h
  | cons y ys =>
    change Converts isBinding (.cons (ofOption x) (ofHoleyList xs))
      (.cons (ofOption y) (ofHoleyList ys)) at h
    cases h with
    | cons head tail last =>
      refine ⟨y, ys, rfl, ?_, tail, ?_⟩
      · cases x with
        | none => cases y with
          | none => exact .none
          | some y => cases head
        | some x => cases y with
          | none => cases head
          | some y => cases head with
            | present value => exact .some value
      · rintro z rfl hrest
        cases ys with
        | nil => rfl
        | cons => cases last hrest

theorem Converts.of_property {isBinding : Bool} {span : Span} {key : Key} {value : Expression}
    {kind : PropertyKind} {method shorthand : Bool} {q : PatternMember}
    (h : Converts isBinding (.property span key value kind method shorthand) q) :
    ∃ p, q = .propertyPattern span key p shorthand ∧ Converts isBinding value p := by
  cases h with
  | property value_ok => exact ⟨_, rfl, value_ok⟩

namespace Grammar

variable {options : ParseOptions} {d : Descent} {m : Nat} {ts : List Token} {opening : Place}
  {s s' t u : ParseState} {pending after : Pending} {e : Expression} {p : Pattern}

/-- Lists worth less than `m` that were read as expressions, and have become targets that take no
liberty, are read as these targets. -/
structure Retargets (d : Descent) (ts : List Token) (opening : Place) (m : Nat) : Prop where
  elements : ∀ {s s' u pending isFirst items after ps}, s.Beside False s' → IsBehind pending s →
    opening.offset < s.place.offset → 8 * s.unread + (if isFirst then 3 else 0) < m →
    d (.elements .bracketR true true isFirst pending) s = .ok (items, after) u →
    u.stream.seen <+: ts → Converts false (ofHoleyList items) (ofHoleyList ps) →
    (ofHoleyList ps).IsBinding ts opening →
    (d (.targets .bracketR true true isFirst)).Reads s' ps u
  members : ∀ {s s' u pending isFirst items after ps}, s.Beside False s' → IsBehind pending s →
    opening.offset < s.place.offset → 8 * s.unread + (if isFirst then 1 else 0) < m →
    d (.members isFirst pending) s = .ok (items, after) u →
    u.stream.seen <+: ts → Converts false (ofList items) (ofList ps) →
    (ofList ps).IsBinding ts opening →
    (d (.patternMembers isFirst)).Reads s' ps u
  parenthesized : ∀ {s s' t u pending isFirst items after ps}, s.Beside False s' →
    IsBehind pending s → opening.offset < s.place.offset →
    8 * s.unread + (if isFirst then 3 else 0) < m →
    d (.parenthesized isFirst pending) s = .ok (items, after) t → Takes .parenR t u →
    u.stream.seen <+: ts → Converts false (ofHoleyList (items.map some)) (ofHoleyList ps) →
    (ofHoleyList ps).IsBinding ts opening →
    (d (.targets .parenR false false isFirst)).Reads s' ps u

section Retargeted

/- Lists that are worth less than `m` are read as targets. -/
variable (hd : Answers options d) (hm : Retargets d ts opening m)

include hd hm

/-- A target without a default value, up to whatever comes behind it. -/
theorem retargets_bindingAtom {noIn : Bool} (hs : s.Beside False s') (hp : IsBehind pending s)
    (hopening : opening.offset < s.place.offset) (h : 8 * s.unread ≤ m)
    (hread : conditional d noIn pending s.markArrow = .ok (e, after) u)
    (hseen : u.stream.seen <+: ts) (hc : Converts false e p) (hb : p.IsBinding ts opening) :
    ∃ u', BindingAtom d s' p u' ∧ u.Beside False u' := by
  obtain ⟨hplain, hmember, -⟩ := hb _ .refl
  have he := mayBind_of_converts hc hmember
  have hprimary := primary_of_conditional hd hread he
  cases of_bindingPrimary hd hprimary he with
  | name kind name_ok =>
    obtain ⟨name, hv, -, ha, rfl⟩ := of_identifier name_ok
    cases hc
    rw [kind_markArrow] at kind
    rw [stream_markArrow] at hv
    obtain ⟨t, ht, hbeside⟩ := advance_of_marked hs kind ha
    obtain ⟨t', ht', hbeside'⟩ := hs.advance (by simp [kind]) ht
    have hend := hbeside.trans hbeside'
    have hname := identifier_run (hs.stream_eq ▸ hv) (hs.kind_eq.trans kind) ht'
    rw [hend.spanFrom_eq, hs.place_eq, ← place_markArrow s] at hname
    exact ⟨t', .name hname, hend⟩
  | array bracket elements_ok =>
    have bracket := takes_of_markArrow (by decide) (by decide) bracket
    obtain ⟨s₁', bracket', hs₁⟩ := hs.exists_of_takes (by decide) bracket
    have hlt := unread_lt_of_takes (by decide) bracket
    have hf := follows_of_takes bracket (by decide)
    have hopening₁ := Nat.lt_of_lt_of_le hopening (place_le_of_follows hs.placed hf)
    cases hc with
    | @array _ _ ps elements_conv =>
      rw [← ofHoleyList_toOption ps] at elements_conv hb ⊢
      obtain ⟨u', hread', hend⟩ := hm.elements hs₁ (hp.mono hs.placed hf) hopening₁
        (by rw [if_pos rfl]; omega) elements_ok hseen elements_conv
        (hb.of_target List.mem_cons_self)
      have hatom := BindingAtom.array bracket' hread'
      rw [hend.spanFrom_eq, hs.place_eq, ← place_markArrow s] at hatom
      exact ⟨u', hatom, hend⟩
  | object brace members_ok =>
    have brace := takes_of_markArrow (by decide) (by decide) brace
    obtain ⟨s₁', brace', hs₁⟩ := hs.exists_of_takes (by decide) brace
    have hlt := unread_lt_of_takes (by decide) brace
    have hf := follows_of_takes brace (by decide)
    have hopening₁ := Nat.lt_of_lt_of_le hopening (place_le_of_follows hs.placed hf)
    cases hc with
    | @object _ _ ps members_conv =>
      rw [← ofList_toList ps] at members_conv hb ⊢
      obtain ⟨u', hread', hend⟩ := hm.members hs₁ (hp.mono hs.placed hf) hopening₁
        (by rw [if_pos rfl]; omega) members_ok hseen members_conv
        (hb.of_target List.mem_cons_self)
      have hatom := BindingAtom.object brace' hread'
      rw [hend.spanFrom_eq, hs.place_eq, ← place_markArrow s] at hatom
      exact ⟨u', hatom, hend⟩
  | parenthesis paren =>
    have hplaced : s.markArrow.stream.IsPlaced := (stream_markArrow s).symm ▸ hs.placed
    have hinside : IsParenthesized ts opening e.span.start :=
      isParenthesized_of_primary hd hplaced (by rwa [place_markArrow]) paren.1 hprimary he hseen
    exact absurd (.parenthesized (hc.span_eq ▸ hinside)) hplain

/-- A target with or without a default value, which is an item of a list. -/
theorem retargets_bindingElement (hs : s.Beside False s') (hp : IsBehind pending s)
    (hopening : opening.offset < s.place.offset) (h : 8 * s.unread ≤ m)
    (hrun : d (.assignment false false pending) s = .ok (e, after) u)
    (hu : u.kind.endsItem = true) (hseen : u.stream.seen <+: ts) (hc : Converts false e p)
    (hb : p.IsBinding ts opening) : (bindingElement d).Reads s' p u := by
  rw [← hd.rule_eq (.assignment false false pending) s trivial] at hrun
  cases of_assignment hrun with
  | yield scope word yield_ok => cases yield_ok <;> cases hc
  | plain left_ok last =>
    obtain ⟨u', hatom, hend⟩ := retargets_bindingAtom hd hm hs hp hopening h left_ok hseen hc hb
    have hbare : u'.kind ≠ .eq := by
      rw [hend.kind_eq]
      intro heq
      rw [heq] at hu
      cases hu
    exact ⟨u', bindingElement_run hatom (.bare hbare), hend⟩
  | @assign left between s₁ operator target s₂ value _ left_ok kind spelling simple target_ok legal
      word value_ok =>
    cases hc
    have hf₁ := follows_of_conditional hd.traces (of_conditional left_ok)
    have hk : s₁.kind ≠ .eof := by
      intro heof
      rw [heof] at kind
      cases kind
    have hf₂ := (follows_of_advance hk word).trans (follows_of_value hd.traces value_ok)
    have hseen₁ := (TokenStream.seen_prefix_of_follows hf₂).trans hseen
    have hb' : target.IsBinding ts opening := hb.of_target List.mem_cons_self
    have hc' := converts_of_toPattern target_ok
    obtain ⟨t, hatom, hend⟩ := retargets_bindingAtom hd hm hs hp hopening h left_ok hseen₁ hc' hb'
    have hs₁ := TokenStream.isPlaced_of_follows hs.placed (follows_markArrow.mp hf₁)
    have heq : s₁.kind = .eq := kind_of_assign hs₁ kind spelling
    obtain ⟨t₁, htakes, hend₁⟩ := hend.exists_of_takes (by decide) ⟨heq, word⟩
    obtain ⟨u', hvalue, hend₂⟩ := hd.carries_value hend₁ value_ok
    have helement := bindingElement_run hatom (.given htakes hvalue)
    rw [hend₂.spanFrom_eq, hs.place_eq] at helement
    exact ⟨u', helement, hend₂⟩

/-- A rest gathers into a name, and no comma comes behind it. -/
theorem retargets_restOfBinding {s₁ : ParseState} (hs : s.Beside False s')
    (hp : IsBehind pending s) (hopening : opening.offset < s.place.offset) (h : 8 * s.unread ≤ m)
    (dots : Takes .ellipsis s s₁)
    (hrun : d (.assignment false false pending) s₁ = .ok (e, after) u)
    (hu : u.kind.endsItem = true) (hseen : u.stream.seen <+: ts) (hc : Converts false e p)
    (hgathers : Converted.restArgument p = .ok p)
    (hb : (restPattern (u.spanFrom s.place) p).IsBinding ts opening) :
    restOfBinding.Reads s' (u.spanFrom s.place, p) u ∧ u.kind ≠ .comma := by
  have hf := follows_of_takes dots (by decide)
  have hle := unread_le_of_follows hf
  have hb' : p.IsBinding ts opening := hb.of_target List.mem_cons_self
  obtain ⟨s₁', dots', hs₁⟩ := hs.exists_of_takes (by decide) dots
  obtain ⟨u', helement, hend⟩ := retargets_bindingElement hd hm hs₁ (hp.mono hs.placed hf)
    (Nat.lt_of_lt_of_le hopening (place_le_of_follows hs.placed hf)) (by omega) hrun hu hseen hc hb'
  obtain ⟨id, rfl, hname⟩ : ∃ id, p = .namePattern id ∧ identifier false s₁' = .ok id u' := by
    obtain ⟨target, t, hatom, hdefault⟩ := of_bindingElement helement
    cases p with
    | namePattern id =>
      cases hdefault
      cases hatom with
      | name name_ok => exact ⟨id, rfl, name_ok⟩
    | memberPattern => cases (hb' _ .refl).2.1
    | arrayPattern => exact absurd .gathersArray (hb _ .refl).1
    | _ => cases hgathers
  refine ⟨⟨u', ?_, hend⟩, fun hcomma => ?_⟩
  · rw [← hs.place_eq, ← hend.spanFrom_eq]
    exact restOfBinding_run dots'.2 hname
  · obtain ⟨name, -, hk, ha, -⟩ := of_identifier hname
    have hended := Nesting.ended_of_advance ha
    rw [hend.stream_eq, hs₁.stream_eq] at hended
    obtain ⟨stream, hadvance, rfl⟩ := advance_eq_ok.mp ha
    obtain rfl : stream = u.stream := hend.stream_eq
    rw [hs₁.stream_eq] at hadvance
    have hkind : s₁.kind ≠ .eof := by
      rw [← hs₁.kind_eq]
      intro heof
      simp [heof] at hk
    have hadjacent := (TokenStream.adjacent_of_step ⟨hkind, hadvance⟩).trans hseen.isInfix
    have hlt : s.place.offset < u.stream.ended := by
      have hstart := place_lt_of_takes hs.placed dots (by decide) (by decide)
      rw [hended]
      exact Nat.lt_of_lt_of_le hstart hs₁.placed.start_le_stop
    have hstop := hended.symm.trans (Nesting.stop_spanFrom hlt).symm
    exact (hb _ .refl).1 (.trailingComma hadjacent hstop hcomma)

omit hm in
/-- A list goes on with a comma, or it is closed. -/
theorem takes_of_elements {r : List (Option Element)} (hk : s.kind ≠ .comma)
    (h : d (.elements .bracketR true true false pending) s = .ok (r, after) u) :
    Takes .bracketR s u := by
  rw [← hd.rule_eq (.elements .bracketR true true false pending) s nofun] at h
  cases of_elements h with
  | closed closing => exact closing
  | trailing comma => cases comma with
    | comma comma => exact absurd comma.1 hk
  | item comma => cases comma with
    | comma comma => exact absurd comma.1 hk

theorem retargets_elements {isFirst : Bool} {items : List (Option Element)}
    {ps : List (Option Pattern)} (hs : s.Beside False s') (hp : IsBehind pending s)
    (hopening : opening.offset < s.place.offset)
    (h : 8 * s.unread + (if isFirst then 3 else 0) ≤ m)
    (hrun : elements d .bracketR true true isFirst pending s = .ok (items, after) u)
    (hseen : u.stream.seen <+: ts) (hc : Converts false (ofHoleyList items) (ofHoleyList ps))
    (hb : (ofHoleyList ps).IsBinding ts opening) :
    (targets d .bracketR true true isFirst).Reads s' ps u := by
  cases of_elements hrun with
  | closed closing =>
    obtain rfl : ps = [] := by cases ps <;> first | rfl | cases hc
    obtain ⟨u', closing', hend⟩ := hs.exists_of_takes (by decide) closing
    exact ⟨u', (Targets.closed closing').run (.inr rfl), hend⟩
  | trailing comma closing =>
    obtain rfl : ps = [] := by cases ps <;> first | rfl | cases hc
    obtain ⟨s₁', comma', hs₁⟩ := hs.exists_of_separator comma
    obtain ⟨u', closing', hend⟩ := hs₁.exists_of_takes (by decide) closing
    exact ⟨u', (Targets.trailing comma' closing' rfl).run (.inr rfl), hend⟩
  | @item s₁ element between s₂ rest _ _ comma item_ok more opens goesOn =>
    obtain ⟨s₁', comma', hs₁⟩ := hs.exists_of_separator comma
    have h₁ : 8 * s₁.unread + 3 ≤ m := Agreement.room_of_separator h (by decide) comma
    have hf₁ := follows_of_separator comma
    have hp₁ := hp.mono hs.placed hf₁
    have hopening₁ := Nat.lt_of_lt_of_le hopening (place_le_of_follows hs.placed hf₁)
    have hf₂ := follows_of_listElement hd.traces item_ok
    have hle₂ := unread_le_of_follows hf₂
    have hopening₂ := Nat.lt_of_lt_of_le hopening₁ (place_le_of_follows hs₁.placed hf₂)
    have hp₂ :=
      (BareDefault.gathers_of_listElement hd.traces hd.holds hs₁.placed hp₁ item_ok).behind
    have hseen₂ := (TokenStream.seen_prefix_of_follows
      (follows_of_goal hd.traces more nofun)).trans hseen
    have hu₂ := endsItem_of_elements hd more
    obtain ⟨q, qs, rfl, hentry, hrest, hlast⟩ := hc.of_cons
    obtain ⟨hb₁, hb₂⟩ := isBinding_cons.mp hb
    -- the items behind this one, wherever the run that reads targets comes to it
    have hmore : ∀ {v}, s₂.Beside False v →
        (d (.targets .bracketR true true false)).Reads v qs u := fun hv =>
      hm.elements hv hp₂ hopening₂ (by simp; omega) more hseen hrest hb₂
    cases item_ok with
    | hole allowed next =>
      cases hentry
      obtain ⟨u', hqs, hend⟩ := hmore hs₁
      have hnext := hs₁.kind_eq.trans next
      exact ⟨u', (Targets.hole comma' hnext hqs rfl).run (.inr rfl), hend⟩
    | spread dots argument_ok =>
      cases hentry with
      | some hconverts =>
        cases hconverts with
        | spread argument_conv gathers =>
          obtain ⟨⟨v, hv, hend⟩, hcomma⟩ := retargets_restOfBinding hd hm hs₁ hp₁ hopening₁
            (by omega) dots argument_ok hu₂ hseen₂ argument_conv gathers (isBinding_present.mp hb₁)
          obtain rfl := hlast _ rfl rfl
          obtain rfl : rest = [] := by cases rest <;> first | rfl | cases hrest
          obtain ⟨u', closing', hend'⟩ :=
            hend.exists_of_takes (by decide) (takes_of_elements hd hcomma more)
          have hdots := hs₁.kind_eq.trans dots.1
          exact ⟨u', (Targets.rest comma' hdots hv closing').run (.inr rfl), hend'⟩
    | item item_ok plain present =>
      cases hentry with
      | some hconverts =>
        cases hconverts with
        | item item_conv =>
          obtain ⟨v, hv, hend⟩ := retargets_bindingElement hd hm hs₁ hp₁ hopening₁ (by omega)
            item_ok hu₂ hseen₂ item_conv (isBinding_present.mp hb₁)
          obtain ⟨u', hqs, hend'⟩ := hmore hend
          exact ⟨u', (Targets.item comma' hv hqs).run (.inr rfl), hend'⟩

omit hm in
/-- A default value that opens no default leaves none pending. -/
theorem value_of_unopened (ho : ∀ g s r u, d g s = .ok r u → g.IsBounded → s.stream.IsPlaced →
      g.Opens s r) {place : Place} (hs : s.stream.IsPlaced) (hp : IsBehind (some place) s)
    (h : 8 * s.unread ≤ m) (hrun : d (.assignment false false (some place)) s = .ok (e, after) u)
    (hu : u.kind.endsItem = true) (hopens : e.opensDefault = false) :
    d.value false s = .ok e u := by
  rw [← hd.rule_eq (.assignment false false _) s trivial] at hrun
  have hmark : s.markArrow.stream.IsPlaced := (stream_markArrow s).symm ▸ hs
  have howned : Repeats SameReading (assignment d false false (some place))
      (assignment d false true none) s u := by
    refine repeats_assignment fun hyield left between t hleft hend => ?_
    obtain ⟨after', hleft'⟩ := left_of_pending hd (repends hd m) (q := none) hs hp h hu hleft hend
    refine ⟨after', hleft', fun _ hk => ?_⟩
    have hunopened := BareDefault.opens_of_conditional ho hmark (of_conditional hleft') rfl
    cases of_assignment hrun with
    | yield scope word => exact absurd (by rw [scope, word]; rfl) hyield
    | plain left_ok =>
      cases left_ok.symm.trans hleft
      cases after' with
      | none => rfl
      | some first => exact absurd (hunopened first rfl).2 (by simp [hopens])
    | assign left_ok kind =>
      cases left_ok.symm.trans hleft
      cases hk.symm.trans kind
  obtain ⟨⟨e', after'⟩, hassignment, hsame⟩ := howned (e, after) hrun
  cases hsame
  exact bind_of_ok ((hd.rule_eq (.assignment false true none) s trivial).symm.trans hassignment)

variable (ho : ∀ g s r u, d g s = .ok r u → g.IsBounded → s.stream.IsPlaced → g.Opens s r)

include ho

omit hm in
/-- A shorthand, whose default value keeps no default of its own. -/
theorem retargets_shorthand {start : Place} {id : Identifier} {member : Member}
    {q : PatternMember} (hs : s.Beside False s') (hp : IsBehind pending s)
    (h : 8 * s.unread ≤ m) (hread : ShorthandProperty d start id pending s (member, after) u)
    (hu : u.kind.endsItem = true) (hc : Converts false member q) (hkeeper : q.isKeeper = false) :
    ∃ p, q = .propertyPattern (u.spanFrom start) (.nameKey id) p true ∧
      ∃ u', WithDefault d start (.namePattern id) s' p u' ∧ u.Beside False u' := by
  cases hread with
  | bare =>
    obtain ⟨p, rfl, hvalue⟩ := hc.of_property
    cases hvalue
    exact ⟨_, rfl, s', .bare (hs.kind_eq ▸ TokenKind.ne_eq_of_endsItem hu), hs⟩
  | @default s₁ value _ _ eq value_ok =>
    obtain ⟨p, rfl, hvalue⟩ := hc.of_property
    cases hvalue
    have hopens : value.opensDefault = false := by
      cases hvalue : value.opensDefault with
      | false => rfl
      | true => cases hkeeper.symm.trans (isKeeper_eq_true.mpr ⟨rfl, hvalue⟩)
    have hlt := unread_lt_of_takes (by decide) eq
    have hplace := place_lt_of_takes hs.placed eq (by decide) (by decide)
    have hp₁ := BareDefault.isBehind_record hp hplace
    obtain ⟨place, hrecord⟩ : ∃ place, pending.record s.place = some place := by
      cases pending <;> exact ⟨_, rfl⟩
    rw [hrecord] at value_ok hp₁
    obtain ⟨s₁', eq', hs₁⟩ := hs.exists_of_takes (by decide) eq
    have hread := value_of_unopened (m := m) hd ho hs₁.placed hp₁ (by omega) value_ok hu hopens
    obtain ⟨u', hread', hend⟩ := hd.carries_value hs₁ hread
    have hdefault : WithDefault d start (.namePattern id) s' _ u' := .given eq' hread'
    rw [hend.spanFrom_eq] at hdefault
    exact ⟨_, rfl, u', hdefault, hend⟩

/-- A property of an object that takes no liberty. -/
theorem retargets_property {member : Member} {q : PatternMember} (hs : s.Beside False s')
    (hp : IsBehind pending s) (hopening : opening.offset < s.place.offset) (h : 8 * s.unread ≤ m)
    (hread : Property d pending s (member, after) u) (hu : u.kind.endsItem = true)
    (hseen : u.stream.seen <+: ts) (hc : Converts false member q) (hb : q.IsBinding ts opening) :
    ∃ u', PatternProperty d s' q u' ∧ u.Beside False u' := by
  cases hread with
  | method star key_ok exclusive method_ok =>
    obtain ⟨p, -, hvalue⟩ := hc.of_property
    unfold FunctionParts.toExpression at hvalue
    cases hvalue
  | value key_ok colon value_ok =>
    obtain ⟨p, rfl, hvalue⟩ := hc.of_property
    obtain ⟨s₁', key_ok', hs₁⟩ := hd.carries_propertyName hs key_ok
    obtain ⟨s₂', colon', hs₂⟩ := hs₁.exists_of_takes (by decide) colon
    have hf := (follows_of_propertyName hd.traces key_ok).trans (follows_of_takes colon (by decide))
    have hle := unread_le_of_follows hf
    obtain ⟨u', hread, hend⟩ := retargets_bindingElement hd hm hs₂ (hp.mono hs.placed hf)
      (Nat.lt_of_lt_of_le hopening (place_le_of_follows hs.placed hf)) (by omega) value_ok hu hseen
      hvalue (hb.of_target List.mem_cons_self)
    have hproperty := PatternProperty.named key_ok' colon' hread
    rw [hend.spanFrom_eq, hs.place_eq] at hproperty
    exact ⟨u', hproperty, hend⟩
  | shorthand key_ok more =>
    obtain ⟨s₁', key_ok', hs₁⟩ := hd.carries_propertyName hs key_ok
    have hf := follows_of_propertyName hd.traces key_ok
    have hle := unread_le_of_follows hf
    have hkeeper : q.isKeeper = false := by
      cases hk : q.isKeeper with
      | false => rfl
      | true => exact absurd (.keepsDefault hk) (hb _ .refl).1
    have hplain : s₁'.kind ≠ .colon := by
      rw [hs₁.kind_eq]
      intro hcolon
      cases more with
      | bare => cases hcolon ▸ hu
      | default eq => cases hcolon.symm.trans eq.1
    obtain ⟨p, rfl, u', hdefault, hend⟩ := retargets_shorthand (m := m) hd ho hs₁
      (hp.mono hs.placed hf) (by omega) more hu hc hkeeper
    rw [← hs.place_eq] at hdefault
    have hproperty := PatternProperty.shorthand key_ok' hdefault hplain
    rw [hend.spanFrom_eq, hs.place_eq] at hproperty
    exact ⟨u', hproperty, hend⟩

theorem retargets_members {isFirst : Bool} {items : List Member} {ps : List PatternMember}
    (hs : s.Beside False s') (hp : IsBehind pending s) (hopening : opening.offset < s.place.offset)
    (h : 8 * s.unread + (if isFirst then 1 else 0) ≤ m)
    (hrun : members d isFirst pending s = .ok (items, after) u) (hseen : u.stream.seen <+: ts)
    (hc : Converts false (ofList items) (ofList ps)) (hb : (ofList ps).IsBinding ts opening) :
    (patternMembers d isFirst).Reads s' ps u := by
  cases of_members hrun with
  | closed closing =>
    obtain rfl : ps = [] := by cases ps <;> first | rfl | cases hc
    obtain ⟨u', closing', hend⟩ := hs.exists_of_takes (by decide) closing
    exact ⟨u', (PatternMembers.closed closing').run, hend⟩
  | trailing comma closing =>
    obtain rfl : ps = [] := by cases ps <;> first | rfl | cases hc
    obtain ⟨s₁', comma', hs₁⟩ := hs.exists_of_separator comma
    obtain ⟨u', closing', hend⟩ := hs₁.exists_of_takes (by decide) closing
    exact ⟨u', (PatternMembers.trailing comma' closing').run, hend⟩
  | @item s₁ member between s₂ rest _ _ comma item_ok more opens goesOn =>
    obtain ⟨s₁', comma', hs₁⟩ := hs.exists_of_separator comma
    have h₁ : 8 * s₁.unread + 1 ≤ m := Agreement.room_of_separator h (by decide) comma
    have hf₁ := follows_of_separator comma
    have hp₁ := hp.mono hs.placed hf₁
    have hopening₁ := Nat.lt_of_lt_of_le hopening (place_le_of_follows hs.placed hf₁)
    have hf₂ := follows_of_objectMember hd.traces item_ok
    have hle₂ := unread_le_of_follows hf₂
    have hopening₂ := Nat.lt_of_lt_of_le hopening₁ (place_le_of_follows hs₁.placed hf₂)
    have hp₂ :=
      (BareDefault.gathers_of_objectMember hd.traces hd.holds hs₁.placed hp₁ item_ok).behind
    have hseen₂ := (TokenStream.seen_prefix_of_follows
      (follows_of_goal hd.traces more trivial)).trans hseen
    have hu₂ := endsItem_of_members hd more
    cases ps with
    | nil => cases hc
    | cons q qs =>
      cases hc with
      | cons hmember hrest =>
        obtain ⟨hb₁, hb₂⟩ := isBinding_cons.mp hb
        cases item_ok with
        | spread dots argument_ok =>
          cases hmember
          cases (hb₁ _ .refl).2.2
        | property property_ok plain =>
          obtain ⟨v, hread, hend⟩ := retargets_property hd hm ho hs₁ hp₁ hopening₁ (by omega)
            property_ok hu₂ hseen₂ hmember hb₁
          obtain ⟨u', hqs, hend'⟩ :=
            hm.members hend hp₂ hopening₂ (by simp; omega) more hseen hrest hb₂
          exact ⟨u', (PatternMembers.item comma' hread hqs).run, hend'⟩

omit ho in
/-- A parenthesized list, which may end with a rest from the start. -/
theorem retargets_parenthesized {isFirst : Bool} {items : List Element}
    {ps : List (Option Pattern)} (hs : s.Beside False s') (hp : IsBehind pending s)
    (hopening : opening.offset < s.place.offset)
    (h : 8 * s.unread + (if isFirst then 3 else 0) ≤ m)
    (hrun : parenthesized d isFirst pending s = .ok (items, after) t) (closing : Takes .parenR t u)
    (hseen : u.stream.seen <+: ts)
    (hc : Converts false (ofHoleyList (items.map some)) (ofHoleyList ps))
    (hb : (ofHoleyList ps).IsBinding ts opening) :
    (targets d .parenR false false isFirst).Reads s' ps u := by
  cases of_parenthesized hrun with
  | done =>
    obtain rfl : ps = [] := by cases ps <;> first | rfl | cases hc
    obtain ⟨u', closing', hend⟩ := hs.exists_of_takes (by decide) closing
    exact ⟨u', (Targets.closed closing').run (.inl rfl), hend⟩
  | rest comma dots rest_ok =>
    obtain ⟨s₁', comma', hs₁⟩ := hs.exists_of_separator comma
    obtain ⟨q, qs, rfl, hentry, hrest, -⟩ := hc.of_cons
    obtain rfl : qs = [] := by cases qs <;> first | rfl | cases hrest
    cases hentry with
    | some hconverts =>
      cases hconverts
      have hagrees := Agreement.agrees_restOfBinding (L := beside False) dots
      obtain ⟨⟨span', argument'⟩, v, hv, ⟨hspan, hargument⟩, hend⟩ :=
        hagrees.exists_of_ok hs₁ rest_ok
      cases (Correspondence.spans_only.mp hspan).1
      cases Node.Alike.eq (fun _ _ h => (Correspondence.spans_only.mp h).1) hargument
      obtain ⟨u', closing', hend'⟩ := hend.exists_of_takes (by decide) closing
      have hdots := hs₁.kind_eq.trans dots
      exact ⟨u', (Targets.rest comma' hdots hv closing').run (.inl rfl), hend'⟩
  | @item s₁ value between s₂ rest _ _ comma item_ok more opens plain =>
    obtain ⟨s₁', comma', hs₁⟩ := hs.exists_of_separator comma
    have h₁ : 8 * s₁.unread + 3 ≤ m := Agreement.room_of_separator h (by decide) comma
    have hf₁ := follows_of_separator comma
    have hp₁ := hp.mono hs.placed hf₁
    have hopening₁ := Nat.lt_of_lt_of_le hopening (place_le_of_follows hs.placed hf₁)
    have hf₂ := follows_of_goal hd.traces item_ok trivial
    have hle₂ := unread_le_of_follows hf₂
    have hopening₂ := Nat.lt_of_lt_of_le hopening₁ (place_le_of_follows hs₁.placed hf₂)
    have hp₂ := (BareDefault.gathers_of_value hd.holds hs₁.placed hp₁ item_ok).1.behind
    have hseen₂ := (TokenStream.seen_prefix_of_follows ((follows_of_goal hd.traces more
      trivial).trans (follows_of_takes closing (by decide)))).trans hseen
    have hu₂ := endsItem_of_parenthesized hd more closing
    obtain ⟨q, qs, rfl, hentry, hrest, -⟩ := hc.of_cons
    obtain ⟨hb₁, hb₂⟩ := isBinding_cons.mp hb
    cases hentry with
    | some hconverts =>
      cases hconverts with
      | item item_conv =>
        obtain ⟨v, hv, hend⟩ := retargets_bindingElement hd hm hs₁ hp₁ hopening₁ (by omega)
          item_ok hu₂ hseen₂ item_conv (isBinding_present.mp hb₁)
        obtain ⟨u', hqs, hend'⟩ :=
          hm.parenthesized hend hp₂ hopening₂ (by simp; omega) more closing hseen hrest hb₂
        exact ⟨u', (Targets.item comma' hv hqs).run (.inl rfl), hend'⟩

end Retargeted

/-- Lists worth whatever are read as the targets that they have become. -/
theorem retargets (hd : Answers options d)
    (ho : ∀ g s r u, d g s = .ok r u → g.IsBounded → s.stream.IsPlaced → g.Opens s r) :
    Retargets d ts opening m := by
  induction m with
  | zero => exact ⟨nofun, nofun, nofun⟩
  | succ m ih =>
    constructor
    · intro s s' u pending isFirst items after ps hs hp hopening h hrun hseen hc hb
      rw [← hd.rule_eq (.elements .bracketR true true isFirst pending) s nofun] at hrun
      rw [Reads, ← hd.rule_eq (.targets .bracketR true true isFirst) s' nofun]
      exact retargets_elements hd ih hs hp hopening (Nat.le_of_lt_succ h) hrun hseen hc hb
    · intro s s' u pending isFirst items after ps hs hp hopening h hrun hseen hc hb
      rw [← hd.rule_eq (.members isFirst pending) s trivial] at hrun
      rw [Reads, ← hd.rule_eq (.patternMembers isFirst) s' trivial]
      exact retargets_members hd ih ho hs hp hopening (Nat.le_of_lt_succ h) hrun hseen hc hb
    · intro s s' t u pending isFirst items after ps hs hp hopening h hrun closing hseen hc hb
      rw [← hd.rule_eq (.parenthesized isFirst pending) s trivial] at hrun
      rw [Reads, ← hd.rule_eq (.targets .parenR false false isFirst) s' nofun]
      exact retargets_parenthesized hd ih hs hp hopening (Nat.le_of_lt_succ h) hrun closing hseen
        hc hb

end Grammar

end EcmaTree
