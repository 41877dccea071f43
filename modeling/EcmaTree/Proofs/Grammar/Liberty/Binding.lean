import EcmaTree.Proofs.Grammar.Liberty.Basic
import EcmaTree.Proofs.Grammar.Nesting.Basic

/-!
# The binding grammar takes no liberty

A target that is read as one from the start has no parenthesis before it but the one that opens its
list, its rest is a name with the end of the list behind it, and no default stays pending in the
default value of a shorthand. The tokens of a text stand one behind the other, so a token is known
by where it begins or ends.
-/

namespace EcmaTree

open EcmaTree.Parser EcmaTree.Grammar EcmaTree.Reading EcmaTree.Trail ParseState Node

/-- The token `x` stands right before the current one. If it is a parenthesis, it is not behind
`opening`. -/
structure ParseState.ComesBehind (opening : Place) (x : Token) (s : ParseState) : Prop where
  adjacent : [x, s.stream.token] <:+: s.stream.seen
  wide : x.IsWide
  outside : x.kind = .parenL → x.span.start.offset ≤ opening.offset

/-- What the answer to a goal for targets is, where no parenthesis behind `opening` comes before. -/
def Goal.ReadsBinding (ts : List Token) (opening : Place) (g : Goal) (s : ParseState)
    (r : g.Result) (u : ParseState) : Prop :=
  match g, r with
  | .targets stop _ _ isFirst, r => (stop = .parenR ∨ stop = .bracketR) →
    (isFirst = true → ∃ x, s.ComesBehind opening x) → u.stream.seen <+: ts →
      (ofHoleyList r).IsBinding ts opening
  | .patternMembers isFirst, r => (isFirst = true → ∃ x, s.ComesBehind opening x) →
    u.stream.seen <+: ts → (ofList r).IsBinding ts opening
  | _, _ => True

namespace Grammar

variable {d : Descent} {s t u : ParseState} {ts : List Token} {opening : Place} {x : Token}
  {p : Pattern}

theorem isWide_of_kind {k : TokenKind} (hs : s.stream.IsPlaced) (hk : s.kind = k) (he : k ≠ .eof)
    (ht : k ≠ .template) : s.stream.token.IsWide :=
  hs.wide (fun h => he (hk.symm.trans h)) fun h => ht (hk.symm.trans h)

/-- The current token stands right before the next one. -/
theorem adjacent_of_advance (hk : s.kind ≠ .eof) (h : advance s = .ok () t) :
    [s.stream.token, t.stream.token] <:+: t.stream.seen := by
  obtain ⟨stream, ha, rfl⟩ := advance_eq_ok.mp h
  exact TokenStream.adjacent_of_step ⟨hk, ha⟩

theorem seen_of_follows (hf : t.Follows u) (hseen : u.stream.seen <+: ts) :
    t.stream.seen <+: ts :=
  (TokenStream.seen_prefix_of_follows hf).trans hseen

theorem comesBehind_of_takes {k : TokenKind} (hs : s.stream.IsPlaced) (h : Takes k s t)
    (he : k ≠ .eof) (ht : k ≠ .template) (hp : k ≠ .parenL) :
    t.ComesBehind opening s.stream.token where
  adjacent := adjacent_of_advance (h.1 ▸ he) h.2
  wide := isWide_of_kind hs h.1 he ht
  outside hk := absurd (h.1.symm.trans hk) hp

theorem comesBehind_of_separator {isFirst : Bool} (hs : s.stream.IsPlaced)
    (hx : isFirst = true → ∃ x, s.ComesBehind opening x) (h : Separator isFirst s t) :
    ∃ x, t.ComesBehind opening x := by
  cases h with
  | first => exact hx rfl
  | comma comma =>
    exact ⟨_, comesBehind_of_takes hs comma (by decide) (by decide) (by decide)⟩

section Rules

/- The tokens stand one behind the other, answers follow their token streams and hold what they
should, and targets are bindings in the lists that a rule depends on. -/
variable (ho : AreOrdered ts)
  (ht : ∀ g s r u, d g s = .ok r u → g.IsBounded → g.Traces s u)
  (hd : ∀ g s r u, d g s = .ok r u → g.IsBounded → s.stream.IsPlaced → g.Holds s r u)
  (hr : ∀ g s r u, d g s = .ok r u → g.IsBounded → s.stream.IsPlaced →
    g.ReadsBinding ts opening s r u)

include ho

/-- What begins with the current token is not in parentheses. -/
theorem not_isParenthesized (hs : s.stream.IsPlaced) (hx : s.ComesBehind opening x)
    (he : s.kind ≠ .eof) (ht : s.kind ≠ .template) (hseen : s.stream.seen <+: ts) :
    ¬IsParenthesized ts opening s.place := by
  rintro ⟨a, b, hab, hkind, hinside, hstart⟩
  obtain rfl := ho.before_eq hab (hx.adjacent.trans hseen.isInfix) hx.wide (hs.wide he ht)
    (congrArg Place.offset hstart)
  exact absurd (hx.outside hkind) (Nat.not_le_of_lt hinside)

include hr ht

theorem isBinding_of_bindingAtom (hs : s.stream.IsPlaced) (hx : s.ComesBehind opening x)
    (h : BindingAtom d s p u) (hseen : u.stream.seen <+: ts) :
    p.IsBinding ts opening ∧ p.span.start = s.place := by
  have hf := follows_of_bindingAtom ht h
  have hseen₀ := seen_of_follows hf hseen
  have hplain : s.kind ≠ .eof → s.kind ≠ .template → p.span.start = s.place →
      ¬IsParenthesized ts opening p.span.start := by
    intro he htemplate hstart
    rw [hstart]
    exact not_isParenthesized ho hs hx he htemplate hseen₀
  cases h with
  | @name id _ name_ok =>
    obtain ⟨name, -, hk, -, rfl⟩ := of_identifier name_ok
    have hk : s.kind = .name := by simpa using hk
    have hstart : (u.spanFrom s.place).start = s.place := start_spanFrom _ _
    refine ⟨.of_targets ?_ rfl rfl nofun, hstart⟩
    rintro (h | _)
    exact hplain (by simp [hk]) (by simp [hk]) hstart h
  | @array s₁ elements _ bracket items =>
    have hf₁ := follows_of_takes bracket (by decide)
    have hs₁ := TokenStream.isPlaced_of_follows hs hf₁
    have hbehind : s₁.ComesBehind opening s.stream.token :=
      comesBehind_of_takes hs bracket (by decide) (by decide) (by decide)
    have hstart : (u.spanFrom s.place).start = s.place := start_spanFrom _ _
    have helements := hr _ _ _ _ items nofun hs₁ (.inr rfl) (fun _ => ⟨_, hbehind⟩) hseen
    refine ⟨.of_targets ?_ rfl rfl (List.forall_mem_singleton.mpr helements), hstart⟩
    rintro (h | _)
    exact hplain (by simp [bracket.1]) (by simp [bracket.1]) hstart h
  | @object s₁ members _ brace items =>
    have hf₁ := follows_of_takes brace (by decide)
    have hs₁ := TokenStream.isPlaced_of_follows hs hf₁
    have hbehind : s₁.ComesBehind opening s.stream.token :=
      comesBehind_of_takes hs brace (by decide) (by decide) (by decide)
    have hstart : (u.spanFrom s.place).start = s.place := start_spanFrom _ _
    have hmembers := hr _ _ _ _ items trivial hs₁ (fun _ => ⟨_, hbehind⟩) hseen
    refine ⟨.of_targets ?_ rfl rfl (List.forall_mem_singleton.mpr hmembers), hstart⟩
    rintro (h | _)
    exact hplain (by simp [brace.1]) (by simp [brace.1]) hstart h

omit ho ht hr in
theorem isBinding_of_withDefault {start : Place} {target : Pattern}
    (htarget : target.IsBinding ts opening) (hplain : ¬IsParenthesized ts opening start)
    (h : WithDefault d start target s p u) : p.IsBinding ts opening := by
  cases h with
  | @given s₁ value _ eq value_ok =>
    have hstart : (u.spanFrom start).start = start := start_spanFrom _ _
    refine .of_targets ?_ rfl rfl (List.forall_mem_singleton.mpr htarget)
    rintro (h | _)
    exact hplain (hstart ▸ h)
  | bare => exact htarget

theorem isBinding_of_bindingElement (hs : s.stream.IsPlaced) (hx : s.ComesBehind opening x)
    (h : bindingElement d s = .ok p u) (hseen : u.stream.seen <+: ts) :
    p.IsBinding ts opening := by
  have hkind := kind_of_bindingElement h
  have hseen₀ := seen_of_follows (follows_of_bindingElement ht h) hseen
  obtain ⟨target, s₁, hatom, hdefault⟩ := of_bindingElement h
  have hseen₁ := seen_of_follows (follows_of_withDefault ht hdefault) hseen
  obtain ⟨htarget, -⟩ := isBinding_of_bindingAtom ho ht hr hs hx hatom hseen₁
  refine isBinding_of_withDefault htarget (not_isParenthesized ho hs hx ?_ ?_ hseen₀) hdefault
  · rcases hkind with h | h | h <;> simp [h]
  · rcases hkind with h | h | h <;> simp [h]

omit ho in
/-- A rest gathers into a name. -/
theorem isBinding_of_rest {span : Span} {argument : Pattern} (ho : AreOrdered ts)
    (hs : s.stream.IsPlaced) (dots : s.kind = .ellipsis)
    (h : restOfBinding s = .ok (span, argument) u) (hseen : u.stream.seen <+: ts) :
    argument.IsBinding ts opening ∧ ∃ id, argument = .namePattern id := by
  obtain ⟨s₁, id, ha, hid, ⟨⟩⟩ := of_restOfBinding h
  have hs₁ := TokenStream.isPlaced_of_follows hs (follows_of_advance (by simp [dots]) ha)
  have hbehind : s₁.ComesBehind opening s.stream.token :=
    comesBehind_of_takes hs ⟨dots, ha⟩ (by decide) (by decide) (by decide)
  obtain ⟨hname, -⟩ := isBinding_of_bindingAtom ho ht hr hs₁ hbehind (.name hid) hseen
  exact ⟨hname, id, rfl⟩

/-- Behind the rest of a list comes the end of the list. -/
theorem isBinding_of_restOfBinding {span : Span} {argument : Pattern} {stop : TokenKind}
    (hs : s.stream.IsPlaced) (hx : s.ComesBehind opening x) (dots : s.kind = .ellipsis)
    (h : restOfBinding s = .ok (span, argument) t) (closing : Takes stop t u)
    (hstop : stop = .parenR ∨ stop = .bracketR) (hseen : t.stream.seen <+: ts) :
    (restPattern span argument).IsBinding ts opening := by
  obtain ⟨hargument, id, rfl⟩ := isBinding_of_rest ht hr ho hs dots h hseen
  have hseen₀ := seen_of_follows (follows_of_restOfBinding dots h) hseen
  obtain ⟨s₁, id', ha, hid, heq⟩ := of_restOfBinding h
  obtain ⟨rfl, hid'⟩ := Prod.mk.inj heq
  cases hid'
  obtain ⟨name, -, hk, hadvance, -⟩ := of_identifier hid
  have hk : s₁.kind = .name := by simpa using hk
  have hf₁ := follows_of_advance (by simp [dots]) ha
  have hf₂ := follows_of_identifier hid
  have hs₁ := TokenStream.isPlaced_of_follows hs hf₁
  have ht' := TokenStream.isPlaced_of_follows hs₁ hf₂
  have hstart : (t.spanFrom s.place).start = s.place := start_spanFrom _ _
  refine .of_targets ?_ rfl rfl (List.forall_mem_singleton.mpr hargument)
  intro hl
  cases hl with
  | parenthesized h =>
    exact not_isParenthesized ho hs hx (by simp [dots]) (by simp [dots]) hseen₀ (hstart ▸ h)
  | trailingComma adjacent stop_eq comma =>
    have hwide : t.stream.token.IsWide := by
      rcases hstop with rfl | rfl <;> exact isWide_of_kind ht' closing.1 (by decide) (by decide)
    have hended := Nesting.ended_of_advance hadvance
    have hlt : s.place.offset < t.stream.ended := by
      have hstart := place_lt_of_takes hs ⟨dots, ha⟩ (by decide) (by decide)
      rw [hended]
      exact Nat.lt_of_lt_of_le hstart hs₁.start_le_stop
    have hname := (adjacent_of_advance (by simp [hk]) hadvance).trans hseen.isInfix
    obtain rfl := ho.behind_eq adjacent hname (isWide_of_kind hs₁ hk (by decide) (by decide)) hwide
      (stop_eq.trans ((Nesting.stop_spanFrom hlt).trans hended))
    have hkind := closing.1.symm.trans comma
    rcases hstop with rfl | rfl <;> cases hkind

theorem isBinding_of_targets {stop : TokenKind} {holes trailingComma isFirst : Bool}
    {r : List (Option Pattern)} (hstop : stop = .parenR ∨ stop = .bracketR)
    (hs : s.stream.IsPlaced) (hx : isFirst = true → ∃ x, s.ComesBehind opening x)
    (h : Targets d stop holes trailingComma isFirst s r u) (hseen : u.stream.seen <+: ts) :
    (ofHoleyList r).IsBinding ts opening := by
  have hbounded : stop ≠ .eof := by rcases hstop with rfl | rfl <;> decide
  cases h with
  | closed | trailing => exact isBinding_nil
  | hole comma next more =>
    have hs₁ := TokenStream.isPlaced_of_follows hs (follows_of_separator comma)
    exact isBinding_cons.mpr ⟨isBinding_absent, hr _ _ _ _ more hbounded hs₁ hstop nofun hseen⟩
  | rest comma dots rest_ok closing =>
    have hs₁ := TokenStream.isPlaced_of_follows hs (follows_of_separator comma)
    obtain ⟨x, hx₁⟩ := comesBehind_of_separator hs hx comma
    have hseen₂ := seen_of_follows (follows_of_takes closing hbounded) hseen
    have hrest := isBinding_of_restOfBinding ho ht hr hs₁ hx₁ dots rest_ok closing hstop hseen₂
    exact isBinding_cons.mpr ⟨isBinding_present.mpr hrest, isBinding_nil⟩
  | item comma item_ok more =>
    have hs₁ := TokenStream.isPlaced_of_follows hs (follows_of_separator comma)
    obtain ⟨x, hx₁⟩ := comesBehind_of_separator hs hx comma
    have hs₂ := TokenStream.isPlaced_of_follows hs₁ (follows_of_bindingElement ht item_ok)
    have hseen₂ := seen_of_follows (follows_of_goal ht more hbounded) hseen
    have hitem := isBinding_of_bindingElement ho ht hr hs₁ hx₁ item_ok hseen₂
    exact isBinding_cons.mpr
      ⟨isBinding_present.mpr hitem, hr _ _ _ _ more hbounded hs₂ hstop nofun hseen⟩

include hd

omit ho ht hr in
/-- A default value that is settled keeps no default. -/
theorem not_isKeeper_of_withDefault {start : Place} {span : Span} {key : Key} {id : Identifier}
    (hs : s.stream.IsPlaced) (h : WithDefault d start (.namePattern id) s p u) :
    (propertyPattern span key p true).isKeeper = false := by
  cases h with
  | @given s₁ value _ eq value_ok =>
    have hs₁ := TokenStream.isPlaced_of_follows hs (follows_of_takes eq (by decide))
    have hheld := BareDefault.isHeld_of_value hd hs₁ value_ok
    exact (opensDefault_eq_false value (defaultsHeld_mono value hheld)).mpr hheld
  | bare => rfl

theorem isBinding_of_patternProperty {q : PatternMember} (hs : s.stream.IsPlaced)
    (hx : s.ComesBehind opening x) (h : PatternProperty d s q u) (hseen : u.stream.seen <+: ts) :
    q.IsBinding ts opening := by
  have hseen₀ := seen_of_follows (follows_of_patternProperty ht h) hseen
  cases h with
  | @named key s₁ s₂ value _ key_ok colon value_ok =>
    have hs₁ := TokenStream.isPlaced_of_follows hs (follows_of_propertyName ht key_ok)
    have hs₂ := TokenStream.isPlaced_of_follows hs₁ (follows_of_takes colon (by decide))
    have hbehind : s₂.ComesBehind opening s₁.stream.token :=
      comesBehind_of_takes hs₁ colon (by decide) (by decide) (by decide)
    have hvalue := isBinding_of_bindingElement ho ht hr hs₂ hbehind value_ok hseen
    refine .of_targets ?_ rfl rfl (List.forall_mem_singleton.mpr hvalue)
    rintro (_ | _ | _ | hkeeper)
    cases value <;> cases hkeeper
  | @shorthand id s₁ value _ key_ok value_ok plain =>
    have hs₁ := TokenStream.isPlaced_of_follows hs (follows_of_propertyName ht key_ok)
    have hplain : ¬IsParenthesized ts opening s.place :=
      not_isParenthesized ho hs hx
        (fun hk => absurd (kind_of_propertyName key_ok hk) (by decide))
        (fun hk => absurd (kind_of_propertyName key_ok hk) (by decide)) hseen₀
    have hname : (namePattern id).IsBinding ts opening := by
      refine .of_targets ?_ rfl rfl nofun
      rintro (h | _)
      cases key_ok with
      | name key_ok =>
        obtain ⟨name, -, -, -, rfl⟩ := of_identifier key_ok
        have hstart : (s₁.spanFrom s.place).start = s.place := start_spanFrom _ _
        exact hplain (hstart ▸ h)
    have hvalue := isBinding_of_withDefault hname hplain value_ok
    refine .of_targets ?_ rfl rfl (List.forall_mem_singleton.mpr hvalue)
    rintro (_ | _ | _ | hkeeper)
    cases hkeeper.symm.trans (not_isKeeper_of_withDefault hd hs₁ value_ok)

theorem isBinding_of_patternMembers {isFirst : Bool} {r : List PatternMember}
    (hs : s.stream.IsPlaced) (hx : isFirst = true → ∃ x, s.ComesBehind opening x)
    (h : PatternMembers d isFirst s r u) (hseen : u.stream.seen <+: ts) :
    (ofList r).IsBinding ts opening := by
  cases h with
  | closed | trailing => exact isBinding_nil
  | rest comma dots rest_ok closing =>
    have hs₁ := TokenStream.isPlaced_of_follows hs (follows_of_separator comma)
    have hseen₂ := seen_of_follows (follows_of_takes closing (by decide)) hseen
    obtain ⟨hargument, -⟩ := isBinding_of_rest ht hr ho hs₁ dots rest_ok hseen₂
    refine isBinding_cons.mpr ⟨?_, isBinding_nil⟩
    refine .of_targets ?_ rfl rfl (List.forall_mem_singleton.mpr hargument)
    rintro (_ | _ | _ | hkeeper)
    cases hkeeper
  | item comma item_ok more =>
    have hs₁ := TokenStream.isPlaced_of_follows hs (follows_of_separator comma)
    obtain ⟨x, hx₁⟩ := comesBehind_of_separator hs hx comma
    have hs₂ := TokenStream.isPlaced_of_follows hs₁ (follows_of_patternProperty ht item_ok)
    have hseen₂ := seen_of_follows (follows_of_goal ht more trivial) hseen
    have hitem := isBinding_of_patternProperty ho ht hd hr hs₁ hx₁ item_ok hseen₂
    exact isBinding_cons.mpr ⟨hitem, hr _ _ _ _ more trivial hs₂ nofun hseen⟩

/-- The step of the induction: only lists of targets have something to show. -/
theorem readsBinding_of_rule {options : ParseOptions} {g : Goal} {r : g.Result}
    (hs : s.stream.IsPlaced) (h : rule options d g s = .ok r u) :
    g.ReadsBinding ts opening s r u := by
  cases g with
  | targets =>
    intro hstop hx hseen
    exact isBinding_of_targets ho ht hr hstop hs hx (of_targets h) hseen
  | patternMembers =>
    intro hx hseen
    exact isBinding_of_patternMembers ho ht hd hr hs hx (of_patternMembers h) hseen
  | _ => trivial

end Rules

/-- Targets that are read as such from the start are bindings. -/
theorem readsBinding_of_answer {options : ParseOptions} {fuel : Nat} {g : Goal} {r : g.Result}
    (ho : AreOrdered ts) (hs : s.stream.IsPlaced) (h : answer options fuel g s = .ok r u) :
    g.ReadsBinding ts opening s r u := by
  induction fuel generalizing g s u with
  | zero => cases h
  | succ fuel ih =>
    refine readsBinding_of_rule (d := answer options fuel) ho ?_ ?_ ?_ hs h
    · exact fun g s r u h hg => traces_of_answer hg h
    · exact fun g s r u h hg hs => BareDefault.holds_of_answer hg hs h
    · exact fun g s r u h _ hs => ih hs h

end Grammar

end EcmaTree
