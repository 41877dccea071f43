import EcmaTree.Proofs.Grammar.BareDefault
import EcmaTree.Proofs.Grammar.Termination

/-!
# One text read beside itself

Two readings of a text stand beside each other at the same token of the same stream, in scopes
of which the right one may be looser. They may have marked different places where an arrow
function may begin, as long as these lie behind: whether one may begin at the current token, and
at the tokens from there on, is the same for both.
-/

namespace EcmaTree

open EcmaTree.Parser EcmaTree.Reading EcmaTree.Trail

/-- Two readings at the same token, the right one in a scope that may be looser. -/
structure ParseState.Beside (lenient : Prop) (s s' : ParseState) : Prop where
  stream_eq : s'.stream = s.stream
  placed : s.stream.IsPlaced
  scope : s.scope.Loosened lenient s'.scope
  mark_le : ∀ o, s.arrowStart = some o → o ≤ s.place.offset
  mark_le' : ∀ o, s'.arrowStart = some o → o ≤ s.place.offset
  mark_iff : s'.arrowStart = some s.place.offset ↔ s.arrowStart = some s.place.offset

namespace ParseState.Beside

variable {lenient : Prop} {s s' : ParseState} {σ σ' : Scope}

theorem kind_eq (h : s.Beside lenient s') : s'.kind = s.kind :=
  congrArg (fun stream => stream.token.kind) h.stream_eq

theorem place_eq (h : s.Beside lenient s') : s'.place = s.place :=
  congrArg (fun stream => stream.token.span.start) h.stream_eq

theorem unread_eq (h : s.Beside lenient s') : s'.unread = s.unread :=
  congrArg TokenStream.unread h.stream_eq

theorem spanFrom_eq (h : s.Beside lenient s') {start : Place} :
    s'.spanFrom start = s.spanFrom start := by
  unfold ParseState.spanFrom
  rw [h.stream_eq]

theorem isBehind {pending : Pending} (h : s.Beside lenient s') (hp : IsBehind pending s) :
    IsBehind pending s' := by
  unfold IsBehind
  rwa [h.place_eq]

theorem rescope (h : s.Beside lenient s') (hσ : Scope.Loosened lenient σ σ') :
    { s with scope := σ }.Beside lenient { s' with scope := σ' } :=
  { h with scope := hσ }

theorem mark (h : s.Beside lenient s') :
    { s with arrowStart := some s.place.offset }.Beside lenient
      { s' with arrowStart := some s'.place.offset } := by
  have hplace : s'.place = s.place := h.place_eq
  refine { h with mark_le := ?_, mark_le' := ?_, mark_iff := ?_ }
  · rintro _ ⟨⟩
    exact Nat.le_refl _
  · rintro _ ⟨⟩
    exact Nat.le_of_eq (congrArg Place.offset hplace)
  · rw [hplace]

theorem markArrow (h : s.Beside lenient s') : s.markArrow.Beside lenient s'.markArrow := by
  unfold ParseState.markArrow
  rw [h.kind_eq]
  split
  · exact h.mark
  · exact h

theorem endsStatement_eq (h : s.Beside lenient s') : s'.endsStatement = s.endsStatement := by
  unfold endsStatement ParseState.kind
  rw [h.stream_eq]

theorem isWord_eq (h : s.Beside lenient s') {word : String} : s'.isWord word = s.isWord word := by
  unfold isWord ParseState.kind
  rw [h.stream_eq]

/-- At a later token the same marks lie behind, or they do at the same token. -/
theorem of_step {stream : TokenStream} (h : s.Beside lenient s') (hs : s.stream.Step stream) :
    { s with stream := stream }.Beside lenient { s' with stream := stream } := by
  have hplaced := TokenStream.isPlaced_of_follows h.placed (.single hs)
  have hle : s.place.offset ≤ stream.token.span.start.offset :=
    TokenStream.start_le_start_of_follows h.placed (.single hs)
  refine ⟨rfl, hplaced, h.scope, fun o ho => Nat.le_trans (h.mark_le o ho) hle,
    fun o ho => Nat.le_trans (h.mark_le' o ho) hle, ?_⟩
  change s'.arrowStart = some stream.token.span.start.offset ↔
    s.arrowStart = some stream.token.span.start.offset
  rcases Nat.lt_or_eq_of_le hle with hlt | heq
  · constructor
    · intro hmark
      exact absurd (h.mark_le' _ hmark) (Nat.not_le_of_lt hlt)
    · intro hmark
      exact absurd (h.mark_le _ hmark) (Nat.not_le_of_lt hlt)
  · rw [← heq]
    exact h.mark_iff

/-- Behind a token that is not empty all marks lie behind. -/
theorem of_wide_step {stream : TokenStream} (h : s.Beside lenient s') (hs : s.stream.Step stream)
    (hk : s.kind ≠ .template) {o o' : Option Nat}
    (ho : ∀ n, o = some n → n ≤ s.place.offset) (ho' : ∀ n, o' = some n → n ≤ s.place.offset) :
    { s with stream := stream, arrowStart := o }.Beside lenient
      { s' with stream := stream, arrowStart := o' } := by
  have hplaced := TokenStream.isPlaced_of_follows h.placed (.single hs)
  have hlt : s.place.offset < stream.token.span.start.offset :=
    Nat.lt_of_lt_of_le (h.placed.wide hs.1 hk) (TokenStream.stop_le_start_of_advance h.placed hs.2)
  refine ⟨rfl, hplaced, h.scope, fun n hn => Nat.le_of_lt (Nat.lt_of_le_of_lt (ho n hn) hlt),
    fun n hn => Nat.le_of_lt (Nat.lt_of_le_of_lt (ho' n hn) hlt), ?_⟩
  constructor
  · intro hmark
    exact absurd (ho' _ hmark) (Nat.not_le_of_lt hlt)
  · intro hmark
    exact absurd (ho _ hmark) (Nat.not_le_of_lt hlt)

theorem left (h : s.Beside lenient s') : s.Beside False s :=
  ⟨rfl, h.placed, .refl _, h.mark_le, h.mark_le, Iff.rfl⟩

theorem right (h : s.Beside lenient s') : s'.Beside False s' where
  stream_eq := rfl
  placed := h.stream_eq ▸ h.placed
  scope := .refl _
  mark_le := h.place_eq ▸ h.mark_le'
  mark_le' := h.place_eq ▸ h.mark_le'
  mark_iff := Iff.rfl

theorem trans {s'' : ParseState} (h : s.Beside False s') (h' : s'.Beside lenient s'') :
    s.Beside lenient s'' where
  stream_eq := h'.stream_eq.trans h.stream_eq
  placed := h.placed
  scope := h.scope.eq_of_not not_false ▸ h'.scope
  mark_le := h.mark_le
  mark_le' := h.place_eq ▸ h'.mark_le'
  mark_iff := by
    rw [← h.mark_iff, ← h.place_eq]
    exact h'.mark_iff

theorem advance {t : ParseState} (h : s.Beside lenient s') (hk : s.kind ≠ .eof)
    (ha : Parser.advance s = .ok () t) :
    ∃ t', Parser.advance s' = .ok () t' ∧ t.Beside lenient t' := by
  obtain ⟨stream, hstream, rfl⟩ := advance_eq_ok.mp ha
  refine ⟨{ s' with stream := stream }, advance_eq_ok.mpr ⟨stream, ?_, rfl⟩,
    h.of_step ⟨hk, hstream⟩⟩
  rw [h.stream_eq, hstream]

/-- A token that both have left behind. -/
theorem of_takes {t t' : ParseState} {k : TokenKind} (h : s.Beside lenient s') (hk : k ≠ .eof)
    (ht : Takes k s t) (ht' : Parser.advance s' = .ok () t') : t.Beside lenient t' := by
  obtain ⟨t'', hadvance, hbeside⟩ := h.advance (ht.1 ▸ hk) ht.2
  cases hadvance.symm.trans ht'
  exact hbeside

theorem of_separator {t t' : ParseState} {isFirst : Bool} (h : s.Beside lenient s')
    (hs : Separator isFirst s t) (hs' : Separator isFirst s' t') : t.Beside lenient t' := by
  cases hs with
  | first =>
    cases hs'
    exact h
  | comma comma =>
    cases hs' with
    | comma comma' => exact h.of_takes (by decide) comma comma'.2

/-- What both have behind a token of kind `k`. -/
theorem exists_of_takes {t : ParseState} {k : TokenKind} (h : s.Beside lenient s') (hk : k ≠ .eof)
    (ht : Takes k s t) : ∃ t', Takes k s' t' ∧ t.Beside lenient t' := by
  obtain ⟨t', ha, hbeside⟩ := h.advance (ht.1 ▸ hk) ht.2
  exact ⟨t', ⟨h.kind_eq.trans ht.1, ha⟩, hbeside⟩

theorem exists_of_separator {t : ParseState} {isFirst : Bool} (h : s.Beside lenient s')
    (hs : Separator isFirst s t) : ∃ t', Separator isFirst s' t' ∧ t.Beside lenient t' := by
  cases hs with
  | first => exact ⟨s', .first _, h⟩
  | comma comma =>
    obtain ⟨t', ht', hbeside⟩ := h.exists_of_takes (by decide) comma
    exact ⟨t', .comma ht', hbeside⟩

end ParseState.Beside

/-- Readings of one text beside each other. -/
def beside (lenient : Prop) : Likeness where
  toCorrespondence := .only fun _ => True
  Lenient := lenient
  Alike := ParseState.Beside lenient
  Failed _ _ := True
  token h := ⟨h.kind_eq, by rw [h.stream_eq], by rw [h.stream_eq], h.place_eq, trivial⟩
  last {s s'} h := by
    rw [h.stream_eq]
    cases s.stream.last with
    | none => exact .none
    | some span => exact .some (Correspondence.spans_only.mpr ⟨rfl, trivial, trivial⟩)
  afterLineBreak_eq h := congrArg TokenStream.afterLineBreak h.stream_eq
  scope h := h.scope
  canBeArrow_eq h := by
    rw [h.place_eq, Bool.eq_iff_iff, beq_iff_eq, beq_iff_eq]
    exact h.mark_iff
  rescope h hσ := h.rescope hσ
  mark h := h.mark
  advance {s s'} h hk := by
    unfold Parser.advance
    cases ha : s.stream.advance with
    | ok u stream =>
      rw [scan_of_ok ha, scan_of_ok (h.stream_eq ▸ ha)]
      exact .ok rfl (h.of_step ⟨hk, ha⟩)
    | error e stream =>
      rw [scan_of_error ha, scan_of_error (h.stream_eq ▸ ha)]
      exact .fault (Correspondence.errors_only.mpr ⟨rfl, trivial⟩) trivial
  failed _ := trivial
  failed_popLabel _ := trivial
  failed_returnTo _ _ := trivial

namespace Parser

variable {α α' : Type} {L : Likeness} {R : α → α' → Prop} {p : Parser α} {p' : Parser α'}
  {s s' u u' : ParseState} {a : α} {a' : α'}

/-- What has been read on the left is read on the right as well. -/
theorem Agrees.exists_of_ok (h : Agrees L R p p' s) (hs : L.Alike s s') (hp : p s = .ok a u) :
    ∃ a' u', p' s' = .ok a' u' ∧ R a a' ∧ L.Alike u u' := by
  have hend := h s' hs
  rw [hp] at hend
  generalize hp' : p' s' = y at hend
  cases hend with
  | ok value alike => exact ⟨_, _, rfl, value, alike⟩

theorem Agrees.of_both_ok (h : Agrees L R p p' s) (hs : L.Alike s s') (hp : p s = .ok a u)
    (hp' : p' s' = .ok a' u') : R a a' ∧ L.Alike u u' := by
  obtain ⟨b, v, hb, hvalue, halike⟩ := h.exists_of_ok hs hp
  cases hb.symm.trans hp'
  exact ⟨hvalue, halike⟩

end Parser

namespace Grammar

/-- Answers that are what the rules make of them, and have the properties of answers. -/
structure Answers (options : ParseOptions) (d : Descent) : Prop where
  rule_eq : ∀ g s, g.IsBounded → rule options d g s = d g s
  traces : ∀ g s r u, d g s = .ok r u → g.IsBounded → g.Traces s u
  shortens : ∀ g s r u, d g s = .ok r u → g.Shortens s u
  holds : ∀ g s r u, d g s = .ok r u → g.IsBounded → s.stream.IsPlaced → g.Holds s r u
  agrees : ∀ {g g' : Goal} {R : g.Result → g'.Result → Prop} {s : ParseState},
    Goal.Alike (beside False).toCorrespondence g g' R → Agrees (beside False) R (d g) (d g') s

variable {options : ParseOptions}

/-- The same goal is answered in the same way from states beside each other. -/
theorem Answers.carries {d : Descent} (hd : Answers options d) {g : Goal} (hg : g.IsBounded)
    {s s' u : ParseState} {r : g.Result} (hs : s.Beside False s') (h : d g s = .ok r u) :
    ∃ u', d g s' = .ok r u' ∧ u.Beside False u' := by
  obtain ⟨R, hself, hR⟩ := Goal.alike_self hg
  obtain ⟨r', u', hrun, hr, hu⟩ := (hd.agrees hself).exists_of_ok hs h
  exact ⟨u', hR _ _ hr ▸ hrun, hu⟩

theorem Answers.carries_value {d : Descent} (hd : Answers options d) {noIn : Bool}
    {s s' u : ParseState} {e : Expression} (hs : s.Beside False s') (h : d.value noIn s = .ok e u) :
    ∃ u', d.value noIn s' = .ok e u' ∧ u.Beside False u' := by
  obtain ⟨after, hassignment⟩ := of_value h
  obtain ⟨u', hrun, hu⟩ := hd.carries (g := .assignment noIn true none) trivial hs hassignment
  exact ⟨u', bind_of_ok hrun, hu⟩

theorem Answers.carries_propertyName {d : Descent} (hd : Answers options d) {key : Key}
    {s s' u : ParseState} (hs : s.Beside False s') (h : PropertyName d s key u) :
    ∃ u', PropertyName d s' key u' ∧ u.Beside False u' := by
  have hagrees := Agreement.agrees_propertyName (L := beside False) (fun hg _ => hd.agrees hg)
    (Nat.le_refl (8 * s.unread))
  obtain ⟨key', u', hkey, hsame, hend⟩ := hagrees.exists_of_ok hs h.run
  cases Node.Alike.eq (fun _ _ h => (Correspondence.spans_only.mp h).1) hsame
  exact ⟨u', of_propertyName hkey, hend⟩

theorem answers_descend : Answers options (descend options) where
  rule_eq g s hg := by
    rw [descend_eq_answer hg (Nat.lt_succ_self _)]
    apply rule_eq_answer hg (Nat.lt_succ_self _)
    intro h t hbounded below
    exact descend_eq_answer hbounded (Goal.worth_lt_of_below below)
  traces g s r u h hg := by
    rw [descend_eq_answer hg (Nat.lt_succ_self _)] at h
    exact traces_of_answer hg h
  shortens g s r u h := by
    cases g
    case elements | targets => trivial
    all_goals
      rw [descend_eq_answer (by trivial) (Nat.lt_succ_self _)] at h
      exact Agreement.shortens_of_answer _ _ _ _ _ h
  holds g s r u h hg hs := by
    rw [descend_eq_answer hg (Nat.lt_succ_self _)] at h
    exact BareDefault.holds_of_answer hg hs h
  agrees {g g' R s} hself := by
    intro s' hs
    have hg : g.IsBounded := by
      cases hself with
      | elements bounded | targets bounded => exact bounded
      | _ => trivial
    have hworth : worth g' s' = worth g s := by
      unfold worth
      rw [hself.rank_eq, hs.unread_eq]
    rw [descend_eq_answer hg (Nat.lt_succ_self _),
      descend_eq_answer hself.isBounded (Nat.lt_succ_self _)]
    exact agrees_answer not_false hself (Nat.lt_succ_self _) (hworth ▸ Nat.lt_succ_self _) s' hs

end Grammar

end EcmaTree
