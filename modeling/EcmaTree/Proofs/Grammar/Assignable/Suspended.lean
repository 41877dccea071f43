import EcmaTree.Proofs.Grammar.Assignable.Basic
import EcmaTree.Proofs.Grammar.Reading.Literal

/-!
# Reading on with a default pending

What stands alone is read in the same way while a default is pending: an operand in brackets or
braces hands the default on from item to item, any other operand is not concerned, and nothing
follows it that could be cut off.
-/

namespace EcmaTree

theorem ParseState.ComesBehind.markArrow {s : ParseState} {opening : Place} {x : Token}
    (hx : s.ComesBehind opening x) : s.markArrow.ComesBehind opening x := by
  have hmark := stream_markArrow s
  exact ⟨hmark ▸ hx.adjacent, hx.wide, hx.outside⟩

namespace Grammar

open EcmaTree.Parser EcmaTree.Reading EcmaTree.Trail ParseState Node

variable {options : ParseOptions} {d : Descent} {ts : List Token} {opening : Place} {m : Nat}
  {s u : ParseState} {x : Token} {place : Place} {q after : Pending} {e : Expression}

/-- What stands alone is a lone operand where no parenthesis comes before. -/
theorem isLone_of_standsAlone {start : Place} (he : e.StandsAlone ts opening)
    (hplain : ¬IsParenthesized ts opening start) : IsLone start e := by
  cases he with
  | expression h =>
    rintro - rfl
    exact hplain h
  | whole simple => exact isLone_of_not simple

/-- On goals worth less than `m` what stands alone is read with a default pending as it has been
read with whichever default. -/
structure Suspends (d : Descent) (ts : List Token) (opening : Place) (m : Nat) : Prop where
  assignment : ∀ {s u x place owned q e after}, s.stream.IsPlaced → IsBehind (some place) s →
    s.ComesBehind opening x → 8 * s.unread + 2 < m → u.kind.endsItem = true →
    u.stream.seen <+: ts → e.StandsAlone ts opening →
    d (.assignment false owned q) s = .ok (e, after) u →
    d (.assignment false false (some place)) s = .ok (e, some place) u
  elements : ∀ {s u place isFirst q es after}, s.stream.IsPlaced → IsBehind (some place) s →
    (isFirst = true → ∃ x, s.ComesBehind opening x) →
    8 * s.unread + (if isFirst then 3 else 0) < m → u.stream.seen <+: ts →
    (ofHoleyList es).StandsAlone ts opening →
    d (.elements .bracketR true true isFirst q) s = .ok (es, after) u →
    d (.elements .bracketR true true isFirst (some place)) s = .ok (es, some place) u
  members : ∀ {s u place isFirst q ms after}, s.stream.IsPlaced → IsBehind (some place) s →
    8 * s.unread + (if isFirst then 1 else 0) < m → u.stream.seen <+: ts →
    (ofList ms).StandsAlone ts opening →
    d (.members isFirst q) s = .ok (ms, after) u →
    d (.members isFirst (some place)) s = .ok (ms, some place) u

/-- What an expression begins with is a token of its own. -/
theorem kind_of_conditional {noIn : Bool} {r : Expression × Pending} (hd : Answers options d)
    (h : conditional d noIn q s = .ok r u) : s.kind ≠ .eof ∧ s.kind ≠ .template := by
  cases hu : s.kind.isUnary with
  | true => constructor <;> intro hk <;> simp [hk, TokenKind.isUnary] at hu
  | false =>
    obtain ⟨r', t, hprimary, -⟩ := end_of_conditional hd hu h
    constructor <;> intro hk <;> simp [primary, hk] at hprimary

section Suspended

/- The tokens stand one behind the other, and what is worth less than `m` is read on. -/
variable (ho : AreOrdered ts) (hd : Answers options d) (hm : Suspends d ts opening m)

include ho hd hm

theorem suspends_primary (hs : s.stream.IsPlaced) (hp : IsBehind (some place) s)
    (hx : s.ComesBehind opening x) (h : 8 * s.unread ≤ m) (hseen : u.stream.seen <+: ts)
    (he : e.StandsAlone ts opening) (hrun : d (.primary q) s = .ok (e, after) u) :
    d (.primary (some place)) s = .ok (e, some place) u := by
  have hseen₀ := seen_of_follows (follows_of_goal hd.traces hrun trivial) hseen
  rw [← hd.rule_eq (.primary _) s trivial] at hrun ⊢
  by_cases hb : s.kind = .bracketL
  · obtain ⟨s₁, elements, between, ha, hrun, ⟨⟩⟩ := (array_eq_ok hb).mp hrun
    have bracket : Takes .bracketL s s₁ := ⟨hb, ha⟩
    have hf := follows_of_takes bracket (by decide)
    have hlt := unread_lt_of_takes (by decide) bracket
    have hplain := not_isParenthesized ho hs hx (by simp [hb]) (by simp [hb]) hseen₀
    rw [← start_spanFrom u s.place] at hplain
    obtain ⟨-, parts⟩ := he.parts_of_expression hplain
    have hrun' := hm.elements (TokenStream.isPlaced_of_follows hs hf) (hp.mono hs hf)
      (fun _ => ⟨_, comesBehind_of_takes hs bracket (by decide) (by decide) (by decide)⟩)
      (by rw [if_pos rfl]; omega) hseen (parts _ List.mem_cons_self) hrun
    exact (array_eq_ok hb).mpr ⟨s₁, _, _, ha, hrun', rfl⟩
  by_cases hc : s.kind = .braceL
  · obtain ⟨s₁, members, between, ha, hrun, ⟨⟩⟩ := (object_eq_ok hc).mp hrun
    have brace : Takes .braceL s s₁ := ⟨hc, ha⟩
    have hf := follows_of_takes brace (by decide)
    have hlt := unread_lt_of_takes (by decide) brace
    have hplain := not_isParenthesized ho hs hx (by simp [hc]) (by simp [hc]) hseen₀
    rw [← start_spanFrom u s.place] at hplain
    obtain ⟨-, parts⟩ := he.parts_of_expression hplain
    have hrun' := hm.members (TokenStream.isPlaced_of_follows hs hf) (hp.mono hs hf)
      (by rw [if_pos rfl]; omega) hseen (parts _ List.mem_cons_self) hrun
    exact (object_eq_ok hc).mpr ⟨s₁, _, _, ha, hrun', rfl⟩
  · exact primary_of_plain hb hc hrun

theorem suspends_conditional {noIn : Bool} (hs : s.stream.IsPlaced)
    (hp : IsBehind (some place) s) (hx : s.ComesBehind opening x) (h : 8 * s.unread ≤ m)
    (hk : u.kind.closesOperand = true) (hseen : u.stream.seen <+: ts)
    (he : e.StandsAlone ts opening) (hrun : conditional d noIn q s = .ok (e, after) u) :
    conditional d noIn (some place) s = .ok (e, some place) u := by
  have hseen₀ := seen_of_follows (follows_of_conditional hd.traces (of_conditional hrun)) hseen
  obtain ⟨heof, htemplate⟩ := kind_of_conditional hd hrun
  have hlone := isLone_of_standsAlone he (not_isParenthesized ho hs hx heof htemplate hseen₀)
  have hunary := operand_of_conditional hd hrun hlone
  refine conditional_of_closes hd ?_ hk
  rw [← hd.rule_eq (.unary (some place)) s trivial]
  cases hu : s.kind.isUnary with
  | true =>
    obtain ⟨hexpression, -⟩ := unaryExpression_of_unary hd hu hunary
    simp [rule, unary, hu]
    exact hexpression
  | false =>
    have hprimary := primary_of_operand hd hu hunary hlone
    exact unary_of_closes hd hu (suspends_primary ho hd hm hs hp hx h hseen he hprimary) hk

/-- The left side of an item. -/
theorem suspends_left {noIn : Bool} (hs : s.stream.IsPlaced) (hp : IsBehind (some place) s)
    (hx : s.ComesBehind opening x) (h : 8 * s.unread ≤ m) (hk : u.kind.closesOperand = true)
    (hseen : u.stream.seen <+: ts) (he : e.StandsAlone ts opening)
    (hrun : conditional d noIn q s.markArrow = .ok (e, after) u) :
    conditional d noIn (some place) s.markArrow = .ok (e, some place) u := by
  have hmark := stream_markArrow s
  have hp' : IsBehind (some place) s.markArrow := isBehind_markArrow.mpr hp
  have hunread : s.markArrow.unread = s.unread := congrArg TokenStream.unread hmark
  exact suspends_conditional ho hd hm (hmark ▸ hs) hp' hx.markArrow (hunread ▸ h) hk hseen he hrun

theorem suspends_assignment {owned : Bool} (hs : s.stream.IsPlaced)
    (hp : IsBehind (some place) s) (hx : s.ComesBehind opening x) (h : 8 * s.unread ≤ m)
    (hu : u.kind.endsItem = true) (hseen : u.stream.seen <+: ts) (he : e.StandsAlone ts opening)
    (hrun : assignment d false owned q s = .ok (e, after) u) :
    assignment d false false (some place) s = .ok (e, some place) u := by
  by_cases hyield : s.scope.inGenerator = true ∧ s.isWord "yield" = true
  · exact assignment_yield hyield.1 hyield.2 hrun
  cases of_assignment hrun with
  | yield scope word => exact absurd ⟨scope, word⟩ hyield
  | plain left_ok last =>
    have hk := TokenKind.closesOperand_of_endsItem hu
    exact assignment_plain hyield (suspends_left ho hd hm hs hp hx h hk hseen he left_ok) last
  | @assign left _ s₁ _ target s₂ _ _ left_ok kind spelling simple target_ok legal word value_ok =>
    have hk := TokenKind.closesOperand_of_isAssignment kind
    have hmark := stream_markArrow s
    have hf₁ := follows_of_conditional hd.traces (of_conditional left_ok)
    have hf₂ : s₁.Follows u := by
      refine (follows_of_advance ?_ word).trans (follows_of_value hd.traces value_ok)
      intro heof
      rw [heof] at kind
      cases kind
    have hseen₁ := seen_of_follows hf₂ hseen
    have hseen₀ := hmark ▸ seen_of_follows hf₁ hseen₁
    obtain ⟨heof, htemplate⟩ := kind_of_conditional hd left_ok
    have hplain := not_isParenthesized ho hs hx (kind_markArrow s ▸ heof)
      (kind_markArrow s ▸ htemplate) hseen₀
    rw [← start_spanFrom u s.place] at hplain
    obtain ⟨-, parts⟩ := he.parts_of_expression hplain
    have hleft : left.StandsAlone ts opening :=
      (converts_of_toPattern target_ok).standsAlone (parts _ List.mem_cons_self)
    have hleft_ok := suspends_left ho hd hm hs hp hx h hk hseen₁ hleft left_ok
    -- the target begins behind the default that is pending
    have hp' : IsBehind (some place) s.markArrow := isBehind_markArrow.mpr hp
    obtain ⟨-, hstart⟩ := BareDefault.gathers_of_conditional hd.traces hd.holds (hmark ▸ hs) hp'
      (of_conditional hleft_ok)
    have hlt : place.offset < left.span.start.offset := Nat.lt_of_lt_of_le (hp' place rfl) hstart
    have hassign : assignment d false false (some place) s = .ok (_, _) u :=
      assignment_assign hyield hleft_ok kind spelling simple target_ok legal word value_ok
    rw [if_neg Bool.false_ne_true, Option.filter_some, if_pos (decide_eq_true hlt)] at hassign
    exact hassign

omit ho hd in
/-- An item behind a token that is no parenthesis. -/
theorem suspends_item {owned : Bool} {k : TokenKind} {s₁ : ParseState} (hs : s.stream.IsPlaced)
    (hp : IsBehind (some place) s) (h : 8 * s.unread ≤ m) (takes : Takes k s s₁) (hk : k ≠ .eof)
    (ht : k ≠ .template) (hparen : k ≠ .parenL) (hu : u.kind.endsItem = true)
    (hseen : u.stream.seen <+: ts) (he : e.StandsAlone ts opening)
    (hrun : d (.assignment false owned q) s₁ = .ok (e, after) u) :
    d (.assignment false false (some place)) s₁ = .ok (e, some place) u := by
  have hf := follows_of_takes takes hk
  have hlt := unread_lt_of_takes hk takes
  exact hm.assignment (TokenStream.isPlaced_of_follows hs hf) (hp.mono hs hf)
    (comesBehind_of_takes hs takes hk ht hparen) (by omega) hu hseen he hrun

omit ho hd in
theorem suspends_element {element : Option Element} (hs : s.stream.IsPlaced)
    (hp : IsBehind (some place) s) (hx : s.ComesBehind opening x) (h : 8 * s.unread + 2 < m)
    (hu : u.kind.endsItem = true) (hseen : u.stream.seen <+: ts)
    (he : (ofOption element).StandsAlone ts opening)
    (hread : ListElement d true q s (element, after) u) :
    ListElement d true (some place) s (element, some place) u := by
  cases hread with
  | hole allowed next => exact .hole allowed next
  | spread dots argument_ok =>
    obtain ⟨-, parts⟩ := (StandsAlone.present_iff.mp he).parts_of_ne nofun nofun
    exact .spread dots (suspends_item hm hs hp (by omega) dots (by decide) (by decide) (by decide)
      hu hseen (parts _ List.mem_cons_self) argument_ok)
  | item item_ok plain present =>
    obtain ⟨-, parts⟩ := (StandsAlone.present_iff.mp he).parts_of_ne nofun nofun
    exact .item (hm.assignment hs hp hx h hu hseen (parts _ List.mem_cons_self) item_ok) plain
      present

omit ho in
theorem suspends_elements {isFirst : Bool} {es : List (Option Element)} (hs : s.stream.IsPlaced)
    (hp : IsBehind (some place) s) (hx : isFirst = true → ∃ x, s.ComesBehind opening x)
    (h : 8 * s.unread + (if isFirst then 3 else 0) ≤ m) (hseen : u.stream.seen <+: ts)
    (he : (ofHoleyList es).StandsAlone ts opening)
    (hrun : elements d .bracketR true true isFirst q s = .ok (es, after) u) :
    elements d .bracketR true true isFirst (some place) s = .ok (es, some place) u := by
  cases of_elements hrun with
  | closed closing => exact (Elements.closed closing).run
  | trailing comma closing => exact (Elements.trailing comma closing).run
  | @item s₁ element between s₂ rest _ _ comma item_ok more opens goesOn =>
    have h₁ : 8 * s₁.unread + 3 ≤ m := Agreement.room_of_separator h (by decide) comma
    have hf₁ := follows_of_separator comma
    have hs₁ := TokenStream.isPlaced_of_follows hs hf₁
    have hp₁ := hp.mono hs hf₁
    obtain ⟨x, hx₁⟩ := comesBehind_of_separator hs hx comma
    have hf₂ := follows_of_listElement hd.traces item_ok
    have hle₂ := unread_le_of_follows hf₂
    have hseen₂ := seen_of_follows (follows_of_goal hd.traces more nofun) hseen
    obtain ⟨hhead, htail⟩ := StandsAlone.cons_iff.mp he
    have hitem := suspends_element hm hs₁ hp₁ hx₁ (by omega) (endsItem_of_elements hd more) hseen₂
      hhead item_ok
    have hrest : d (.elements .bracketR true true false (some place)) s₂ =
        .ok (rest, some place) u :=
      hm.elements (TokenStream.isPlaced_of_follows hs₁ hf₂) (hp₁.mono hs₁ hf₂) nofun
        (by simp; omega) hseen htail more
    exact (Elements.item comma hitem hrest opens goesOn).run

omit ho hd in
theorem suspends_shorthand {start : Place} {id : Identifier} {member : Member}
    (hs : s.stream.IsPlaced) (hp : IsBehind (some place) s) (h : 8 * s.unread ≤ m)
    (hu : u.kind.endsItem = true) (hseen : u.stream.seen <+: ts)
    (he : member.StandsAlone ts opening)
    (hread : ShorthandProperty d start id q s (member, after) u) :
    ShorthandProperty d start id (some place) s (member, some place) u := by
  cases hread with
  | bare => exact .bare
  | default eq value_ok =>
    obtain ⟨-, parts⟩ := he.parts_of_ne nofun nofun
    exact .default eq (suspends_item hm hs hp h eq (by decide) (by decide) (by decide) hu hseen
      (parts _ (List.mem_cons_of_mem _ List.mem_cons_self)) value_ok)

omit ho in
theorem suspends_property {member : Member} (hs : s.stream.IsPlaced)
    (hp : IsBehind (some place) s) (h : 8 * s.unread ≤ m) (hu : u.kind.endsItem = true)
    (hseen : u.stream.seen <+: ts) (he : member.StandsAlone ts opening)
    (hread : Property d q s (member, after) u) :
    Property d (some place) s (member, some place) u := by
  cases hread with
  | method star key_ok exclusive method_ok => exact .method star key_ok exclusive method_ok
  | value key_ok colon value_ok =>
    have hf := follows_of_propertyName hd.traces key_ok
    have hle := unread_le_of_follows hf
    obtain ⟨-, parts⟩ := he.parts_of_ne nofun nofun
    exact .value key_ok colon (suspends_item hm (TokenStream.isPlaced_of_follows hs hf)
      (hp.mono hs hf) (by omega) colon (by decide) (by decide) (by decide) hu hseen
      (parts _ List.mem_cons_self) value_ok)
  | shorthand key_ok more =>
    have hf := follows_of_propertyName hd.traces key_ok
    have hle := unread_le_of_follows hf
    exact .shorthand key_ok (suspends_shorthand hm (TokenStream.isPlaced_of_follows hs hf)
      (hp.mono hs hf) (by omega) hu hseen he more)

omit ho in
theorem suspends_member {member : Member} (hs : s.stream.IsPlaced) (hp : IsBehind (some place) s)
    (h : 8 * s.unread ≤ m) (hu : u.kind.endsItem = true) (hseen : u.stream.seen <+: ts)
    (he : member.StandsAlone ts opening) (hread : ObjectMember d q s (member, after) u) :
    ObjectMember d (some place) s (member, some place) u := by
  cases hread with
  | spread dots argument_ok =>
    obtain ⟨-, parts⟩ := he.parts_of_ne nofun nofun
    exact .spread dots (suspends_item hm hs hp h dots (by decide) (by decide) (by decide) hu hseen
      (parts _ List.mem_cons_self) argument_ok)
  | property property_ok plain =>
    exact .property (suspends_property hd hm hs hp h hu hseen he property_ok) plain

omit ho in
theorem suspends_members {isFirst : Bool} {ms : List Member} (hs : s.stream.IsPlaced)
    (hp : IsBehind (some place) s) (h : 8 * s.unread + (if isFirst then 1 else 0) ≤ m)
    (hseen : u.stream.seen <+: ts) (he : (ofList ms).StandsAlone ts opening)
    (hrun : members d isFirst q s = .ok (ms, after) u) :
    members d isFirst (some place) s = .ok (ms, some place) u := by
  have hkind : ∀ t between rest, d (.members false between) t = .ok rest u →
      t.kind = .comma ∨ t.kind = .braceR := fun t between rest => kind_of_members hd
  cases of_members hrun with
  | closed closing => exact (Members.closed closing).run hkind
  | trailing comma closing => exact (Members.trailing comma closing).run hkind
  | @item s₁ member between s₂ rest _ _ comma item_ok more opens goesOn =>
    have h₁ : 8 * s₁.unread + 1 ≤ m := Agreement.room_of_separator h (by decide) comma
    have hf₁ := follows_of_separator comma
    have hs₁ := TokenStream.isPlaced_of_follows hs hf₁
    have hp₁ := hp.mono hs hf₁
    have hf₂ := follows_of_objectMember hd.traces item_ok
    have hle₂ := unread_le_of_follows hf₂
    have hseen₂ := seen_of_follows (follows_of_goal hd.traces more trivial) hseen
    obtain ⟨hhead, htail⟩ := StandsAlone.cons_iff.mp he
    have hitem := suspends_member hd hm hs₁ hp₁ (by omega) (endsItem_of_members hd more) hseen₂
      hhead item_ok
    have hrest := hm.members (TokenStream.isPlaced_of_follows hs₁ hf₂) (hp₁.mono hs₁ hf₂)
      (by simp; omega) hseen htail more
    exact (Members.item comma hitem hrest opens goesOn).run hkind

end Suspended

/-- What stands alone is read on, whatever it is worth. -/
theorem suspends (ho : AreOrdered ts) (hd : Answers options d) : Suspends d ts opening m := by
  induction m with
  | zero => exact ⟨nofun, nofun, nofun⟩
  | succ m ih =>
    constructor
    · intro s u x place owned q e after hs hp hx h hu hseen he hrun
      rw [← hd.rule_eq (.assignment false _ _) s trivial] at hrun ⊢
      exact suspends_assignment ho hd ih hs hp hx (by omega) hu hseen he hrun
    · intro s u place isFirst q es after hs hp hx h hseen he hrun
      rw [← hd.rule_eq (.elements .bracketR true true isFirst _) s nofun] at hrun ⊢
      exact suspends_elements hd ih hs hp hx (Nat.le_of_lt_succ h) hseen he hrun
    · intro s u place isFirst q ms after hs hp h hseen he hrun
      rw [← hd.rule_eq (.members isFirst _) s trivial] at hrun ⊢
      exact suspends_members hd ih hs hp (Nat.le_of_lt_succ h) hseen he hrun

end Grammar

end EcmaTree
