import EcmaTree.Proofs.Grammar.Loosening.Basic

/-!
# Reading on without the pending default

While a default is pending an operand is cut short: no operator, suffix or question mark
follows it. So what has been read with a default pending, up to a token that closes it, is read
in the same way with none: what is cut off are tokens that do not come.
-/

namespace EcmaTree

namespace TokenKind

/-- A token that stands behind an item of a list. -/
def endsItem : TokenKind → Bool
  | .comma | .parenR | .bracketR | .braceR => true
  | _ => false

/-- A token behind an operand that no operator, suffix or question mark follows. -/
def closesOperand (k : TokenKind) : Bool :=
  k.endsItem || k.isAssignment

variable {k : TokenKind}

theorem cases_of_closesOperand (h : k.closesOperand = true) :
    k = .comma ∨ k = .parenR ∨ k = .bracketR ∨ k = .braceR ∨ k = .eq ∨ k = .assign := by
  unfold closesOperand endsItem isAssignment at h
  split at h <;> split at h <;> simp_all

theorem closesOperand_of_endsItem (h : k.endsItem = true) : k.closesOperand = true := by
  rw [closesOperand, h, Bool.true_or]

theorem closesOperand_of_isAssignment (h : k.isAssignment = true) : k.closesOperand = true := by
  rw [closesOperand, h, Bool.or_true]

theorem not_isAssignment_of_endsItem (h : k.endsItem = true) : k.isAssignment = false := by
  unfold endsItem at h
  split at h <;> first | rfl | cases h

theorem ne_eq_of_endsItem (h : k.endsItem = true) : k ≠ .eq := by
  rintro rfl
  cases h

end TokenKind

namespace Parser

variable {α α' β β' : Type} {R : α → α' → Prop} {S : β → β' → Prop} {s u : ParseState}

/-- What the first parser reads from `s` to `u` the second one reads as well. -/
def Repeats (R : α → α' → Prop) (p : Parser α) (p' : Parser α') (s u : ParseState) : Prop :=
  ∀ a, p s = .ok a u → ∃ a', p' s = .ok a' u ∧ R a a'

namespace Repeats

variable {p q : Parser α} {p' q' : Parser α'} {f : α → Parser β} {f' : α' → Parser β'}

theorem pure {a : α} {a' : α'} (h : R a a') : Repeats R (pure a) (pure a') s u := by
  intro b hb
  obtain ⟨rfl, rfl⟩ := pure_eq_ok.mp hb
  exact ⟨a', rfl, h⟩

theorem bind (h : ∀ a t b, p s = .ok a t → f a t = .ok b u →
      ∃ a', p' s = .ok a' t ∧ Repeats S (f a) (f' a') t u) :
    Repeats S (p >>= f) (p' >>= f') s u := by
  intro b hb
  obtain ⟨a, t, hp, hf⟩ := bind_eq_ok.mp hb
  obtain ⟨a', hp', hrest⟩ := h a t b hp hf
  obtain ⟨b', hf', hb'⟩ := hrest b hf
  exact ⟨b', bind_eq_ok.mpr ⟨a', t, hp', hf'⟩, hb'⟩

theorem andThen (hp : ∀ t, Repeats R p p' s t)
    (hf : ∀ a a' t, R a a' → Repeats S (f a) (f' a') t u) :
    Repeats S (p >>= f) (p' >>= f') s u := by
  refine bind fun a t b ha _ => ?_
  obtain ⟨a', hp', hR⟩ := hp t a ha
  exact ⟨a', hp', hf a a' t hR⟩

/-- A step that both parsers make. -/
theorem same {f' : α → Parser β'} (h : ∀ a t, p s = .ok a t → Repeats S (f a) (f' a) t u) :
    Repeats S (p >>= f) (p >>= f') s u :=
  bind fun a t _ hp _ => ⟨a, hp, h a t hp⟩

theorem ite {c : Prop} [Decidable c] (hp : c → Repeats R p p' s u) (hq : ¬c → Repeats R q q' s u) :
    Repeats R (if c then p else q) (if c then p' else q') s u := by
  split
  · exact hp ‹_›
  · exact hq ‹_›

theorem of_fails (h : ∀ a, p s ≠ .ok a u) : Repeats R p p' s u :=
  fun a ha => absurd ha (h a)

end Repeats

end Parser

namespace Grammar

open EcmaTree.Parser EcmaTree.Reading EcmaTree.Trail ParseState

variable {options : ParseOptions} {d : Descent} {s u : ParseState} {pending after : Pending}
  {place : Place} {e : Expression}

section Closed

/-! ### Operands before a token that closes them -/

theorem suffixes_of_closes (hk : s.kind.closesOperand = true) {start : Place} :
    suffixes d e start false s = .ok e s := by
  rcases TokenKind.cases_of_closesOperand hk with h | h | h | h | h | h <;>
    simp [suffixes, h]

theorem operators_of_closes (hk : s.kind.closesOperand = true) {start : Place} {floor : Nat}
    {noIn : Bool} : operators d e start floor noIn s = .ok e s := by
  rcases TokenKind.cases_of_closesOperand hk with h | h | h | h | h | h <;>
    simp [operators, h, TokenKind.binaryStrength?]

theorem trailingUpdate_of_closes (hk : s.kind.closesOperand = true) {start : Place} :
    trailingUpdate start e s = .ok e s := by
  rcases TokenKind.cases_of_closesOperand hk with h | h | h | h | h | h <;>
    simp [trailingUpdate, h, TokenKind.isTrailing]

/-- Only brackets and braces hand a pending default on. -/
theorem primary_of_plain {q : Pending} (hb : s.kind ≠ .bracketL) (hc : s.kind ≠ .braceL)
    (h : primary d pending s = .ok (e, after) u) : primary d q s = .ok (e, q) u := by
  have hrepeats : Repeats (fun r r' => r' = (r.1, q)) (primary d pending) (primary d q) s u := by
    unfold primary
    refine .same fun start t hrun => ?_
    obtain ⟨rfl, rfl⟩ := here_eq_ok.mp hrun
    refine .same fun state t' hrun => ?_
    obtain ⟨rfl, rfl⟩ := get_eq_ok.mp hrun
    refine .same fun k t hrun => ?_
    obtain ⟨rfl, rfl⟩ := kind_eq_ok.mp hrun
    split <;> rename_i hk
    case h_10 => exact absurd hk hb
    case h_11 => exact absurd hk hc
    case h_15 => exact .of_fails fun _ => unexpected_ne_ok
    case h_2 | h_12 => exact .same fun _ _ _ => .same fun _ _ _ => .pure rfl
    all_goals exact .same fun _ _ _ => .pure rfl
  obtain ⟨r, hrun, rfl⟩ := hrepeats _ h
  exact hrun

end Closed

section Answered

variable (hd : Answers options d)

include hd

theorem leftHandSide_of_closes (h : d (.primary pending) s = .ok (e, after) u)
    (hk : u.kind.closesOperand = true) :
    leftHandSide d pending s = .ok (e, after) u := by
  have hsuffixes : d (.suffixes e s.place false) u = .ok e u := by
    rw [← hd.rule_eq (.suffixes e s.place false) u trivial]
    exact suffixes_of_closes hk
  simp [leftHandSide, h, hsuffixes]

theorem unary_of_closes (hu : s.kind.isUnary = false)
    (h : d (.primary pending) s = .ok (e, after) u)
    (hk : u.kind.closesOperand = true) : unary d pending s = .ok (e, after) u := by
  cases after <;> simp [unary, hu, leftHandSide_of_closes hd h hk, trailingUpdate_of_closes hk]

theorem conditional_of_closes {noIn : Bool} (h : d (.unary pending) s = .ok (e, after) u)
    (hk : u.kind.closesOperand = true) :
    conditional d noIn pending s = .ok (e, after) u := by
  have hoperators : d (.operators e s.place 0 noIn) u = .ok e u := by
    rw [← hd.rule_eq (.operators e s.place 0 noIn) u trivial]
    exact operators_of_closes hk
  have hbinary : binary d noIn pending s = .ok (e, after) u := by
    simp [binary, h, hoperators]
  have hquestion : u.kind ≠ .question := by
    rcases TokenKind.cases_of_closesOperand hk with h | h | h | h | h | h <;> simp [h]
  simp [conditional, hbinary, hquestion]

/-- A primary expression is all there is before a token that closes it. -/
theorem conditional_of_primary {noIn : Bool} (hu : s.kind.isUnary = false)
    (h : primary d pending s = .ok (e, after) u) (hk : u.kind.closesOperand = true) :
    conditional d noIn pending s = .ok (e, after) u := by
  have hprimary := (hd.rule_eq (.primary pending) s trivial).symm.trans h
  have hunary := unary_of_closes hd hu hprimary hk
  exact conditional_of_closes hd ((hd.rule_eq (.unary pending) s trivial).symm.trans hunary) hk

/-- The same answer, whichever default is pending then. -/
def SameReading {α : Type} (r r' : α × Pending) : Prop :=
  r'.1 = r.1

/-- On goals worth less than `m` what is read with a default pending is read without it as well. -/
structure Repends (d : Descent) (m : Nat) : Prop where
  assignment : ∀ {s u place} q, s.stream.IsPlaced → IsBehind (some place) s →
    8 * s.unread + 2 < m → u.kind.endsItem = true →
    Repeats SameReading (d (.assignment false false (some place)))
      (d (.assignment false false q)) s u
  elements : ∀ {s u place isFirst} q, s.stream.IsPlaced → IsBehind (some place) s →
    8 * s.unread + (if isFirst then 3 else 0) < m →
    Repeats SameReading (d (.elements .bracketR true true isFirst (some place)))
      (d (.elements .bracketR true true isFirst q)) s u
  members : ∀ {s u place isFirst} q, s.stream.IsPlaced → IsBehind (some place) s →
    8 * s.unread + (if isFirst then 1 else 0) < m →
    Repeats SameReading (d (.members isFirst (some place))) (d (.members isFirst q)) s u

section Repeated

/- Answers worth less than `m` are repeated with another pending default, if there was one. -/
variable {m : Nat} (hr : Repends d m)

omit hd in
theorem unary_of_conditional {noIn : Bool}
    (h : conditional d noIn pending s = .ok (e, some place) u) :
    d (.unary pending) s = .ok (e, some place) u := by
  cases of_conditional h with
  | plain test_ok =>
    cases test_ok with
    | operand first => exact first

omit hd in
theorem primary_of_unary (hu : s.kind.isUnary = false)
    (h : unary d pending s = .ok (e, some place) u) :
    d (.primary pending) s = .ok (e, some place) u := by
  cases of_unary h with
  | operator kind => exact absurd (hu.symm.trans kind) nofun
  | pending left_ok =>
    cases left_ok with
    | atom atom_ok => exact atom_ok

include hr

omit hd in
/-- Only in brackets and braces a default can be pending. -/
theorem repeats_primary {q : Pending} (hs : s.stream.IsPlaced) (hp : IsBehind (some place) s)
    (h : 8 * s.unread ≤ m) : Repeats SameReading (primary d (some place)) (primary d q) s u := by
  have hinside : ∀ {t}, s.kind ≠ .eof → advance s = .ok () t →
      t.stream.IsPlaced ∧ IsBehind (some place) t ∧ 8 * t.unread + 4 < m := by
    intro t hk ha
    have hf := follows_of_advance hk ha
    have hlt := unread_lt_of_advance hk ha
    exact ⟨TokenStream.isPlaced_of_follows hs hf, hp.mono hs hf, by omega⟩
  rintro ⟨e, after⟩ hrun
  by_cases hb : s.kind = .bracketL
  · obtain ⟨s₁, elements, between, ha, hrun, ⟨⟩⟩ := (array_eq_ok hb).mp hrun
    obtain ⟨hs₁, hp₁, hm⟩ := hinside (by simp [hb]) ha
    obtain ⟨⟨_, after'⟩, hrun', rfl⟩ := hr.elements q hs₁ hp₁ (by rw [if_pos rfl]; omega) _ hrun
    exact ⟨_, (array_eq_ok hb).mpr ⟨s₁, _, after', ha, hrun', rfl⟩, rfl⟩
  by_cases hc : s.kind = .braceL
  · obtain ⟨s₁, members, between, ha, hrun, ⟨⟩⟩ := (object_eq_ok hc).mp hrun
    obtain ⟨hs₁, hp₁, hm⟩ := hinside (by simp [hc]) ha
    obtain ⟨⟨_, after'⟩, hrun', rfl⟩ := hr.members q hs₁ hp₁ (by rw [if_pos rfl]; omega) _ hrun
    exact ⟨_, (object_eq_ok hc).mpr ⟨s₁, _, after', ha, hrun', rfl⟩, rfl⟩
  · exact ⟨(e, q), primary_of_plain hb hc hrun, rfl⟩

theorem repeats_unary {q : Pending} (hs : s.stream.IsPlaced) (hp : IsBehind (some place) s)
    (h : 8 * s.unread ≤ m) (hk : u.kind.closesOperand = true) :
    Repeats SameReading (unary d (some place)) (unary d q) s u := by
  rintro ⟨e, after⟩ hrun
  cases hu : s.kind.isUnary with
  | true =>
    simp [unary, hu] at hrun
    refine ⟨(e, q), ?_, rfl⟩
    simp [unary, hu, hrun.1]
  | false =>
    obtain ⟨hg, -⟩ := BareDefault.gathers_of_unary hd.traces hd.holds hs hp (of_unary hrun)
    obtain rfl := hg.keeps _ rfl
    have hprimary := primary_of_unary hu hrun
    rw [← hd.rule_eq (.primary (some place)) s trivial] at hprimary
    obtain ⟨⟨e', after'⟩, hrepeat, hsame⟩ := repeats_primary hr hs hp h (e, some place) hprimary
    obtain rfl : e' = e := hsame
    refine ⟨(e', after'), unary_of_closes hd hu ?_ hk, rfl⟩
    rw [← hd.rule_eq (.primary q) s trivial]
    exact hrepeat

/-- With a default pending an operand is all there is. -/
theorem repeats_conditional {q : Pending} {noIn : Bool} (hs : s.stream.IsPlaced)
    (hp : IsBehind (some place) s) (h : 8 * s.unread ≤ m) (hk : u.kind.closesOperand = true) :
    Repeats SameReading (conditional d noIn (some place)) (conditional d noIn q) s u := by
  rintro ⟨e, after⟩ hrun
  have hread := of_conditional hrun
  obtain ⟨hg, -⟩ := BareDefault.gathers_of_conditional hd.traces hd.holds hs hp hread
  obtain rfl := hg.keeps _ rfl
  have hunary := unary_of_conditional hrun
  rw [← hd.rule_eq (.unary (some place)) s trivial] at hunary
  obtain ⟨⟨e', after'⟩, hrepeat, hsame⟩ := repeats_unary hd hr hs hp h hk (e, some place) hunary
  obtain rfl : e' = e := hsame
  refine ⟨(e', after'), conditional_of_closes hd ?_ hk, rfl⟩
  rw [← hd.rule_eq (.unary q) s trivial]
  exact hrepeat

/-- The left side of an item, of which an assignment may follow. -/
theorem left_of_pending {q : Pending} {noIn : Bool} {t : ParseState} (hs : s.stream.IsPlaced)
    (hp : IsBehind (some place) s) (h : 8 * s.unread ≤ m) (hu : u.kind.endsItem = true)
    (hrun : conditional d noIn (some place) s.markArrow = .ok (e, after) t)
    (hend : t = u ∨ t.kind.isAssignment = true) :
    ∃ after', conditional d noIn q s.markArrow = .ok (e, after') t := by
  have hmark := stream_markArrow s
  have hplaced : s.markArrow.stream.IsPlaced := hmark ▸ hs
  have hbehind : IsBehind (some place) s.markArrow := isBehind_markArrow.mpr hp
  have hunread : s.markArrow.unread = s.unread := congrArg TokenStream.unread hmark
  have hk : t.kind.closesOperand = true := by
    rcases hend with rfl | hend
    · exact TokenKind.closesOperand_of_endsItem hu
    · exact TokenKind.closesOperand_of_isAssignment hend
  obtain ⟨⟨e', after'⟩, hrun', hsame⟩ :=
    repeats_conditional hd hr (q := q) hplaced hbehind (hunread ▸ h) hk _ hrun
  cases hsame
  exact ⟨after', hrun'⟩

omit hd hr in
/-- An assignment does with its left side the same, whatever stays pending in it. -/
theorem repeats_assignment {noIn owned : Bool} {q : Pending}
    (hleft : ¬(s.scope.inGenerator && s.isWord "yield") = true →
      ∀ left after t, conditional d noIn pending s.markArrow = .ok (left, after) t →
      (t = u ∨ t.kind.isAssignment = true) →
      ∃ after', conditional d noIn (if owned then none else q) s.markArrow =
          .ok (left, after') t ∧
        (owned = true → t.kind.isAssignment = false → after' = none)) :
    Repeats SameReading (assignment d noIn false pending) (assignment d noIn owned q) s u := by
  simp only [assignment, ite_bind, when_bind]
  refine .same fun state t hrun => ?_
  obtain ⟨rfl, rfl⟩ := get_eq_ok.mp hrun
  refine .same fun word t' hrun => ?_
  obtain ⟨rfl, rfl⟩ := isContextual_eq_ok.mp hrun
  refine .ite (fun _ => .same fun _ _ _ => .pure rfl) fun hyield => ?_
  refine .same fun start t hrun => ?_
  obtain ⟨rfl, rfl⟩ := here_eq_ok.mp hrun
  refine .same fun k t' hrun => ?_
  obtain ⟨rfl, rfl⟩ := kind_eq_ok.mp hrun
  refine .same fun _ marked hmarked => ?_
  obtain rfl : marked = t'.markArrow := by
    simp at hmarked
    unfold ParseState.markArrow
    grind
  refine .bind ?_
  rintro ⟨left, after⟩ t r hrun hrest
  have hend : t = u ∨ t.kind.isAssignment = true := by
    cases hk : t.kind.isAssignment with
    | true => exact .inr rfl
    | false =>
      simp [hk] at hrest
      exact .inl hrest.2.symm
  obtain ⟨after', hrun', hsettled⟩ := hleft hyield left after t hrun hend
  refine ⟨(left, after'), hrun', ?_⟩
  refine .same fun k t' hrun => ?_
  obtain ⟨rfl, rfl⟩ := kind_eq_ok.mp hrun
  refine .ite (fun hk => ?_) fun hk => ?_
  · refine .same fun token t hrun => ?_
    split
    · exact .of_fails fun _ => unexpected_ne_ok
    · refine .same fun target t _ => .same fun _ t _ => .same fun _ t _ => ?_
      exact .same fun value t _ => .same fun _ _ _ => .pure rfl
  · refine .bind fun _ t r hrun _ => ?_
    obtain ⟨-, rfl⟩ := pure_eq_ok.mp hrun
    have hnone : owned = true → after' = none := fun ho => hsettled ho (Bool.not_eq_true _ ▸ hk)
    refine ⟨(), ?_, .pure rfl⟩
    cases owned with
    | true => exact refuse_eq_ok.mpr ⟨hnone rfl, rfl⟩
    | false => rfl

omit hd in
/-- The value at the end of an item. -/
theorem repeats_item {β : Type} {S : β → β → Prop} {q : Pending}
    {f f' : Expression × Pending → Parser β} (hs : s.stream.IsPlaced)
    (hp : IsBehind (some place) s) (h : 8 * s.unread + 2 < m) (hu : u.kind.endsItem = true)
    (hlast : ∀ a t b, f a t = .ok b u → t = u)
    (hf : ∀ a a', SameReading a a' → Repeats S (f a) (f' a') u u) :
    Repeats S (d (.assignment false false (some place)) >>= f)
      (d (.assignment false false q) >>= f') s u := by
  refine .bind fun a t b hrun hrest => ?_
  obtain rfl := hlast a t b hrest
  obtain ⟨a', hrun', hsame⟩ := hr.assignment q hs hp h hu a hrun
  exact ⟨a', hrun', hf a a' hsame⟩

omit hd in
theorem repeats_spread {q : Pending} (hs : s.stream.IsPlaced) (hp : IsBehind (some place) s)
    (h : 8 * s.unread ≤ m) (hk : s.kind ≠ .eof) (hu : u.kind.endsItem = true) :
    Repeats SameReading (spread d (some place)) (spread d q) s u := by
  unfold spread
  refine .same fun start t hrun => ?_
  obtain ⟨rfl, rfl⟩ := here_eq_ok.mp hrun
  refine .same fun _ s₁ ha => ?_
  have hf := follows_of_advance hk ha
  have hlt := unread_lt_of_advance hk ha
  apply repeats_item hr (TokenStream.isPlaced_of_follows hs hf) (hp.mono hs hf) (by omega) hu
  · rintro ⟨e, after⟩ t r hrest
    simp at hrest
    exact hrest.1.symm
  · rintro ⟨e, after⟩ ⟨e', after'⟩ hsame
    obtain rfl : e' = e := hsame
    exact .same fun _ _ _ => .pure rfl

omit hd in
theorem repeats_element {q : Pending} (hs : s.stream.IsPlaced) (hp : IsBehind (some place) s)
    (h : 8 * s.unread + 2 < m) (hu : u.kind.endsItem = true) :
    Repeats SameReading (elements.element d true (some place)) (elements.element d true q) s u := by
  simp only [elements.element, if_true]
  refine .same fun isHole t hrun => ?_
  obtain ⟨-, rfl⟩ := sees_eq_ok.mp hrun
  refine .ite (fun _ => .pure rfl) fun _ => ?_
  refine .same fun isSpread t' hrun => ?_
  obtain ⟨rfl, rfl⟩ := sees_eq_ok.mp hrun
  refine .ite (fun hk => ?_) fun _ => ?_
  · have hk : t'.kind ≠ .eof := by
      rw [beq_iff_eq.mp hk]
      decide
    refine .bind fun a t b hrun hrest => ?_
    obtain ⟨⟨span, argument⟩, after⟩ := a
    obtain rfl : t = u := (pure_eq_ok.mp hrest).2.symm
    obtain ⟨⟨⟨span', argument'⟩, after'⟩, hrun', hsame⟩ :=
      repeats_spread hr (q := q) hs hp (by omega) hk hu _ hrun
    cases hsame
    exact ⟨_, hrun', .pure rfl⟩
  · apply repeats_item hr hs hp h hu
    · rintro ⟨e, after⟩ t r hrest
      exact (pure_eq_ok.mp hrest).2.symm
    · rintro ⟨e, after⟩ ⟨e', after'⟩ hsame
      obtain rfl : e' = e := hsame
      exact .pure rfl

omit hr in
theorem endsItem_of_elements {r : List (Option Element) × Pending}
    (h : d (.elements .bracketR true true false pending) s = .ok r u) : s.kind.endsItem = true := by
  rw [← hd.rule_eq (.elements .bracketR true true false pending) s nofun] at h
  cases of_elements h with
  | closed closing => rw [closing.1]; rfl
  | trailing comma closing => cases comma with | comma comma => rw [comma.1]; rfl
  | item comma => cases comma with | comma comma => rw [comma.1]; rfl

theorem repeats_elements {isFirst : Bool} {q : Pending} (hs : s.stream.IsPlaced)
    (hp : IsBehind (some place) s) (h : 8 * s.unread + (if isFirst then 3 else 0) ≤ m) :
    Repeats SameReading (elements d .bracketR true true isFirst (some place))
      (elements d .bracketR true true isFirst q) s u := by
  simp only [elements, ite_bind, unless_bind]
  refine .same fun closes t hrun => ?_
  refine .ite (fun _ => .pure rfl) fun hc => ?_
  obtain ⟨-, -, rfl⟩ := (eat_eq_ok.mp hrun).resolve_left fun h => hc h.1
  refine .same fun _ s₁ hrun => ?_
  have hsep : Separator isFirst t s₁ := by
    simp [separator_iff] at hrun ⊢
    exact hrun
  have hf := follows_of_separator hsep
  have h₁ : 8 * s₁.unread + 3 ≤ m := Agreement.room_of_separator h (by decide) hsep
  have hs₁ := TokenStream.isPlaced_of_follows hs hf
  have hp₁ := hp.mono hs hf
  refine .same fun closes t' hrun => ?_
  refine .ite (fun _ => .pure rfl) fun hc => ?_
  obtain rfl : t' = s₁ := by
    split at hrun
    · exact ((eat_eq_ok.mp hrun).resolve_left fun h => hc h.1).2.2
    · exact (pure_eq_ok.mp hrun).2
  refine .bind ?_
  rintro ⟨element, after⟩ s₂ r hrun hrest
  obtain ⟨⟨rest, last⟩, v, hmore, -⟩ := bind_eq_ok.mp hrest
  have hread := of_element hrun
  have hf₂ := follows_of_listElement hd.traces hread
  have hg := BareDefault.gathers_of_listElement hd.traces hd.holds hs₁ hp₁ hread
  obtain rfl := hg.keeps _ rfl
  have hle := unread_le_of_follows hf₂
  obtain ⟨⟨element', after'⟩, hrun', hsame⟩ :=
    repeats_element hr (q := q) hs₁ hp₁ (by omega) (endsItem_of_elements hd hmore) _ hrun
  obtain rfl : element' = element := hsame
  refine ⟨_, hrun', .andThen (fun _ => hr.elements after' ?_ hg.behind ?_) ?_⟩
  · exact TokenStream.isPlaced_of_follows hs₁ hf₂
  · rw [if_neg Bool.false_ne_true]
    omega
  · rintro ⟨rest, last⟩ ⟨rest', last'⟩ t hsame
    obtain rfl : rest' = rest := hsame
    exact .pure rfl

omit hd in
theorem repeats_shorthandProperty {start : Place} {id : Identifier} {q : Pending}
    (hs : s.stream.IsPlaced) (hp : IsBehind (some place) s) (h : 8 * s.unread ≤ m)
    (hu : u.kind.endsItem = true) :
    Repeats SameReading (shorthandProperty d start id (some place))
      (shorthandProperty d start id q) s u := by
  unfold shorthandProperty
  refine .same fun k t hrun => ?_
  obtain ⟨rfl, rfl⟩ := kind_eq_ok.mp hrun
  split <;> rename_i hk
  · exact .same fun _ _ _ => .pure rfl
  · exact .same fun _ _ _ => .pure rfl
  · refine .same fun eq t' hrun => ?_
    obtain ⟨rfl, rfl⟩ := here_eq_ok.mp hrun
    refine .same fun _ s₁ ha => ?_
    have hk : t'.kind ≠ .eof := by simp [hk]
    have hf := follows_of_advance hk ha
    have hlt := unread_lt_of_advance hk ha
    apply repeats_item hr (TokenStream.isPlaced_of_follows hs hf) (hp.mono hs hf) (by omega) hu
    · rintro ⟨e, after⟩ t r hrest
      simp at hrest
      exact hrest.1.symm
    · rintro ⟨e, after⟩ ⟨e', after'⟩ hsame
      obtain rfl : e' = e := hsame
      exact .same fun _ _ _ => .same fun _ _ _ => .pure rfl
  · exact .of_fails fun _ => unexpected_ne_ok

theorem repeats_property {q : Pending} (hs : s.stream.IsPlaced) (hp : IsBehind (some place) s)
    (h : 8 * s.unread ≤ m) (hu : u.kind.endsItem = true) :
    Repeats SameReading (property d (some place)) (property d q) s u := by
  simp only [property, ite_bind]
  refine .same fun start t hrun => ?_
  obtain ⟨rfl, rfl⟩ := here_eq_ok.mp hrun
  refine .same fun generator s₁ hrun => ?_
  have hf₁ := follows_of_eats (eat_eq_ok.mp hrun) (by decide)
  refine .same fun word s₂ hrun => ?_
  have hf₂ := hf₁.trans (follows_of_propertyName hd.traces (of_propertyName hrun))
  refine .same fun k s₂' hrun => ?_
  obtain ⟨rfl, rfl⟩ := kind_eq_ok.mp hrun
  refine .same fun key s₃ hrun => ?_
  have hf₃ : t.Follows s₃ := by
    rcases ite_eq_ok.mp hrun with ⟨-, hrun⟩ | ⟨-, hrun⟩
    · exact hf₂.trans (follows_of_propertyName hd.traces (of_propertyName hrun))
    · obtain ⟨-, rfl⟩ := pure_eq_ok.mp hrun
      exact hf₂
  refine .same fun k s₃' hrun => ?_
  obtain ⟨rfl, rfl⟩ := kind_eq_ok.mp hrun
  refine .ite (fun _ => .same fun _ _ _ => .same fun _ _ _ => .pure rfl) fun _ => ?_
  refine .same fun colon s₄ hrun => ?_
  have hf₄ := hf₃.trans (follows_of_eats (eat_eq_ok.mp hrun) (by decide))
  have hs₄ := TokenStream.isPlaced_of_follows hs hf₄
  have hp₄ := hp.mono hs hf₄
  have hle := unread_le_of_follows hf₄
  refine .ite (fun hc => ?_) fun hc => ?_
  · have hlt : s₄.unread < s₃'.unread := by
      rcases eat_eq_ok.mp hrun with ⟨-, htakes⟩ | ⟨hno, -⟩
      · exact unread_lt_of_takes (by decide) htakes
      · exact absurd hc (hno ▸ Bool.false_ne_true)
    have hle₃ := unread_le_of_follows hf₃
    apply repeats_item hr hs₄ hp₄ (by omega) hu
    · rintro ⟨e, after⟩ t r hrest
      simp at hrest
      exact hrest.1.symm
    · rintro ⟨e, after⟩ ⟨e', after'⟩ hsame
      obtain rfl : e' = e := hsame
      exact .same fun _ _ _ => .pure rfl
  · cases key with
    | nameKey id => exact repeats_shorthandProperty hr hs₄ hp₄ (by omega) hu
    | literalKey | computedKey => exact .of_fails fun _ => unexpected_ne_ok

omit hr in
/-- Behind a member comes another one, or the end of the object. -/
theorem kind_of_members {r : List Member × Pending}
    (h : d (.members false pending) s = .ok r u) : s.kind = .comma ∨ s.kind = .braceR := by
  rw [← hd.rule_eq (.members false pending) s trivial] at h
  cases of_members h with
  | closed closing => exact .inr closing.1
  | trailing comma closing => cases comma with | comma comma => exact .inl comma.1
  | item comma => cases comma with | comma comma => exact .inl comma.1

omit hr in
theorem endsItem_of_members {r : List Member × Pending}
    (h : d (.members false pending) s = .ok r u) : s.kind.endsItem = true := by
  rcases kind_of_members hd h with hk | hk <;> rw [hk] <;> rfl

theorem repeats_member {q : Pending} (hs : s.stream.IsPlaced) (hp : IsBehind (some place) s)
    (h : 8 * s.unread ≤ m) (hu : u.kind.endsItem = true) :
    Repeats SameReading (members.member d (some place)) (members.member d q) s u := by
  simp only [members.member]
  refine .same fun isSpread t hrun => ?_
  obtain ⟨rfl, rfl⟩ := sees_eq_ok.mp hrun
  refine .ite (fun hk => ?_) fun _ => repeats_property hd hr hs hp h hu
  have hk : t.kind ≠ .eof := by
    rw [beq_iff_eq.mp hk]
    decide
  refine .bind fun a t b hrun hrest => ?_
  obtain ⟨⟨span, argument⟩, after⟩ := a
  obtain rfl : t = u := (pure_eq_ok.mp hrest).2.symm
  obtain ⟨⟨⟨span', argument'⟩, after'⟩, hrun', hsame⟩ :=
    repeats_spread hr (q := q) hs hp h hk hu _ hrun
  cases hsame
  exact ⟨_, hrun', .pure rfl⟩

theorem repeats_members {isFirst : Bool} {q : Pending} (hs : s.stream.IsPlaced)
    (hp : IsBehind (some place) s) (h : 8 * s.unread + (if isFirst then 1 else 0) ≤ m) :
    Repeats SameReading (members d isFirst (some place)) (members d isFirst q) s u := by
  simp only [members, ite_bind, unless_bind]
  refine .same fun closes t hrun => ?_
  refine .ite (fun _ => .pure rfl) fun hc => ?_
  obtain ⟨-, -, rfl⟩ := (eat_eq_ok.mp hrun).resolve_left fun h => hc h.1
  refine .same fun _ s₁ hrun => ?_
  have hsep : Separator isFirst t s₁ := by
    simp [separator_iff] at hrun ⊢
    exact hrun
  have hf := follows_of_separator hsep
  have h₁ : 8 * s₁.unread + 1 ≤ m := Agreement.room_of_separator h (by decide) hsep
  have hs₁ := TokenStream.isPlaced_of_follows hs hf
  have hp₁ := hp.mono hs hf
  refine .same fun closes t' hrun => ?_
  refine .ite (fun _ => .pure rfl) fun hc => ?_
  obtain rfl : t' = s₁ := by
    split at hrun
    · exact (pure_eq_ok.mp hrun).2
    · exact ((eat_eq_ok.mp hrun).resolve_left fun h => hc h.1).2.2
  refine .bind ?_
  rintro ⟨member, after⟩ s₂ r hrun hrest
  obtain ⟨⟨rest, last⟩, v, hmore, -⟩ := bind_eq_ok.mp hrest
  have hread := of_member hrun
  have hf₂ := follows_of_objectMember hd.traces hread
  have hg := BareDefault.gathers_of_objectMember hd.traces hd.holds hs₁ hp₁ hread
  obtain rfl := hg.keeps _ rfl
  have hle := unread_le_of_follows hf₂
  obtain ⟨⟨member', after'⟩, hrun', hsame⟩ :=
    repeats_member hd hr (q := q) hs₁ hp₁ (by omega) (endsItem_of_members hd hmore) _ hrun
  obtain rfl : member' = member := hsame
  refine ⟨_, hrun', .andThen (fun _ => hr.members after' ?_ hg.behind ?_) ?_⟩
  · exact TokenStream.isPlaced_of_follows hs₁ hf₂
  · rw [if_neg Bool.false_ne_true]
    omega
  · rintro ⟨rest, last⟩ ⟨rest', last'⟩ t hsame
    obtain rfl : rest' = rest := hsame
    exact .pure rfl

end Repeated

/-- What is read with a default pending up to the end of an item is read without it as well. -/
theorem repends (m : Nat) : Repends d m := by
  induction m with
  | zero => exact ⟨nofun, nofun, nofun⟩
  | succ m ih =>
    constructor
    · intro s u place q hs hp h hu r hrun
      rw [← hd.rule_eq (.assignment false false _) s trivial] at hrun ⊢
      refine repeats_assignment (fun _ left after t hleft hend => ?_) r hrun
      obtain ⟨after', hrun'⟩ := left_of_pending hd ih (q := q) hs hp (by omega) hu hleft hend
      exact ⟨after', hrun', nofun⟩
    · intro s u place isFirst q hs hp h r hrun
      rw [← hd.rule_eq (.elements .bracketR true true isFirst _) s nofun] at hrun ⊢
      exact repeats_elements hd ih hs hp (by omega) r hrun
    · intro s u place isFirst q hs hp h r hrun
      rw [← hd.rule_eq (.members isFirst _) s trivial] at hrun ⊢
      exact repeats_members hd ih hs hp (by omega) r hrun

end Answered

end Grammar

end EcmaTree
