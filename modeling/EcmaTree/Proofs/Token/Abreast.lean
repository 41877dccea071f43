import EcmaTree.Proofs.Source.Slice
import EcmaTree.Proofs.Token.Trail

/-!
# Streams abreast

Two streams, of one text or of two, can have the same tokens ahead: tokens of the same kind,
value and text, with line breaks before the same ones. Then they step together up to the end of
input. Of the places of the tokens they have in common only the order: a token starts after
another one if there are characters in between, and which tokens have characters can be seen.
-/

namespace EcmaTree

namespace TokenStream

variable {s s' t t' : TokenStream}

/-- A stream after its current token, whose characters are those between its ends. A token
without characters before the end of input is a chunk of a template that still goes on. -/
structure IsRead (s : TokenStream) : Prop where
  width : s.token.span.stop.offset = s.token.span.start.offset + byteLength s.token.text
  stop_eq : s.token.span.stop.offset = s.cursor.offset
  within : s.token.kind ≠ .eof → s.token.text = [] → s.context.top = .quoteTemplate

theorem top_of_chunk {kind : TokenKind} (c : ContextStack) (previous : TokenKind)
    (afterLineBreak : Bool) (hk : kind = .template) :
    (c.step previous kind afterLineBreak).top = c.top := by
  subst hk
  unfold ContextStack.step
  simp [TokenKind.isKeyword, TokenKind.keyword?, ContextStack.top]

theorem isRead_of_read {u : Unit} (h : read s = .ok u t) : t.IsRead := by
  have hreads := reads_of_read h
  obtain ⟨m, l, hm, -, rfl⟩ := of_read h
  have hwidth := Cursor.pass_offset l.length l.lines m.cursor
  refine ⟨hwidth, rfl, ?_⟩
  intro hk htext
  cases hreads with
  | eof kind => exact absurd kind hk
  | chunk inside kind =>
    have hkind : l.kind = .template := kind
    change (m.context.step _ l.kind _).top = .quoteTemplate
    rw [top_of_chunk _ _ _ hkind, hm.context_eq]
    exact inside
  | solid _ _ _ wide =>
    have hempty : byteLength (m.cursor.rest.take l.length) = 0 := by
      rw [show m.cursor.rest.take l.length = [] from htext]
      rfl
    have hlt : m.cursor.offset < (m.cursor.pass l.length l.lines).offset := wide
    omega

theorem isRead_of_step (h : Step s t) : t.IsRead :=
  isRead_of_read h.2

/-- Within a template nothing is skipped before a token. -/
theorem start_of_advance_within {u : Unit} (hs : s.context.top = .quoteTemplate)
    (h : advance s = .ok u t) : t.token.span.start = s.cursor.place := by
  have hspace : s.recorded.context.top.preservesSpace = true := by
    change s.context.top.preservesSpace = true
    rw [hs]
    rfl
  unfold advance read at h
  rw [if_pos hspace] at h
  unfold readHere at h
  dsimp only at h
  split at h <;> cases h
  rfl

/-- The next token starts after the current one exactly if the current one has characters. -/
theorem start_of_step (hs : s.IsRead) (h : Step s t) :
    s.token.span.start.offset ≤ t.token.span.start.offset ∧
      (s.token.span.start.offset < t.token.span.start.offset ↔ s.token.text ≠ []) := by
  obtain ⟨hk, ha⟩ := h
  have hwidth := hs.width
  have hstop := hs.stop_eq
  have hle : s.cursor.offset ≤ t.token.span.start.offset := (places_of_read ha).1
  refine ⟨by omega, ?_⟩
  constructor
  · intro hlt htext
    have hnext : t.token.span.start = s.cursor.place :=
      start_of_advance_within (hs.within hk htext) ha
    rw [hnext] at hlt
    rw [htext] at hwidth
    have hempty : s.token.span.stop.offset = s.token.span.start.offset := hwidth
    have hcursor : s.token.span.start.offset < s.cursor.offset := hlt
    omega
  · intro htext
    have hpos := byteLength_pos.mpr htext
    omega

/-- What can be seen of the current token without its place. -/
def sight (s : TokenStream) : TokenKind × TokenValue × List Char × Bool :=
  (s.token.kind, s.token.value, s.token.text, s.afterLineBreak)

/-- The same tokens are ahead, and no error comes before the end of input. -/
structure SameAhead (s s' : TokenStream) : Prop where
  left : (follow s.pending s).error = none
  right : (follow s'.pending s').error = none
  sights_eq : (follow s'.pending s').states.map sight = (follow s.pending s).states.map sight

theorem follow_states (fuel : Nat) (s : TokenStream) :
    ∃ rest, (follow fuel s).states = s :: rest := by
  cases fuel with
  | zero => exact ⟨[], rfl⟩
  | succ fuel =>
    unfold follow
    split
    · exact ⟨[], rfl⟩
    · split
      · exact ⟨_, rfl⟩
      · exact ⟨[], rfl⟩

/-- Before the end of input a stream whose trail has no error goes on. -/
theorem exists_step (hk : s.token.kind ≠ .eof) (h : (follow s.pending s).error = none) :
    ∃ t, Step s t := by
  cases ha : advance s with
  | ok u t => exact ⟨t, hk, ha⟩
  | error e t =>
    obtain ⟨n, hn⟩ := Nat.exists_eq_succ_of_ne_zero (Nat.ne_of_gt (pending_pos hk))
    rw [hn, Nat.succ_eq_add_one, follow_of_error hk ha] at h
    cases h

namespace SameAhead

theorem sight_eq (h : SameAhead s s') : s'.sight = s.sight := by
  obtain ⟨rest, hrest⟩ := follow_states s.pending s
  obtain ⟨rest', hrest'⟩ := follow_states s'.pending s'
  have hsights := h.sights_eq
  rw [hrest, hrest', List.map_cons, List.map_cons] at hsights
  exact (List.cons.inj hsights).1

theorem kind_eq (h : SameAhead s s') : s'.token.kind = s.token.kind :=
  congrArg Prod.fst h.sight_eq

theorem unread_eq (h : SameAhead s s') : s'.unread = s.unread := by
  have hlength := congrArg List.length h.sights_eq
  rwa [List.length_map, List.length_map] at hlength

theorem exists_steps (h : SameAhead s s') (hk : s.token.kind ≠ .eof) :
    ∃ t t', Step s t ∧ Step s' t' := by
  obtain ⟨t, ht⟩ := exists_step hk h.left
  obtain ⟨t', ht'⟩ := exists_step (h.kind_eq.symm ▸ hk) h.right
  exact ⟨t, t', ht, ht'⟩

theorem of_steps (h : SameAhead s s') (ht : Step s t) (ht' : Step s' t') : SameAhead t t' := by
  obtain ⟨left, right, sights_eq⟩ := h
  rw [follow_pending_of_step ht] at left sights_eq
  rw [follow_pending_of_step ht'] at right sights_eq
  exact ⟨left, right, (List.cons.inj sights_eq).2⟩

theorem text_eq (h : SameAhead s s') : s'.token.text = s.token.text :=
  congrArg (fun sight => sight.2.2.1) h.sight_eq

end SameAhead

/-- Two texts whose trails show the same tokens have the same tokens ahead at the first one. -/
theorem sameAhead_of_scan {text text' : List Char} (h : (scan text).error = none)
    (h' : (scan text').error = none)
    (hsights : (scan text').states.map sight = (scan text).states.map sight) :
    ∃ s s', read (ofText text) = .ok () s ∧ read (ofText text') = .ok () s' ∧ SameAhead s s' := by
  obtain ⟨s, hs⟩ := exists_first h
  obtain ⟨s', hs'⟩ := exists_first h'
  rw [scan_eq_follow hs] at h hsights
  rw [scan_eq_follow hs'] at h' hsights
  exact ⟨s, s', hs, hs', h, h', hsights⟩

/-- Streams that are abreast have each read a token, and have the same tokens ahead. -/
structure Abreast (p : TokenStream × TokenStream) : Prop where
  left : p.1.IsRead
  right : p.2.IsRead
  ahead : SameAhead p.1 p.2

/-- Both streams leave a token behind. -/
def StepBoth (p q : TokenStream × TokenStream) : Prop :=
  Step p.1 q.1 ∧ Step p.2 q.2

/-- From `p` to `q` the start of the token moves on in both streams or in neither. -/
structure SameOrder (p q : TokenStream × TokenStream) : Prop where
  left : p.1.token.span.start.offset ≤ q.1.token.span.start.offset
  right : p.2.token.span.start.offset ≤ q.2.token.span.start.offset
  lt_iff : p.2.token.span.start.offset < q.2.token.span.start.offset ↔
    p.1.token.span.start.offset < q.1.token.span.start.offset

variable {p q r : TokenStream × TokenStream}

theorem SameOrder.trans (hpq : SameOrder p q) (hqr : SameOrder q r) : SameOrder p r := by
  obtain ⟨hleft, hright, hlt⟩ := hpq
  obtain ⟨hleft', hright', hlt'⟩ := hqr
  constructor <;> omega

theorem sameOrder_of_step (hp : Abreast p) (h : StepBoth p q) : SameOrder p q := by
  obtain ⟨hle, hlt⟩ := start_of_step hp.left h.1
  obtain ⟨hle', hlt'⟩ := start_of_step hp.right h.2
  refine ⟨hle, hle', ?_⟩
  rw [hlt, hlt', hp.ahead.text_eq]

theorem abreast_of_step (hp : Abreast p) (h : StepBoth p q) : Abreast q :=
  ⟨isRead_of_step h.1, isRead_of_step h.2, hp.ahead.of_steps h.1 h.2⟩

theorem abreast_of_steps (hp : Abreast p) (h : Relation.ReflTransGen StepBoth p q) :
    Abreast q ∧ SameOrder p q := by
  induction h with
  | refl => exact ⟨hp, Nat.le_refl _, Nat.le_refl _, by omega⟩
  | tail _ hstep ih =>
    exact ⟨abreast_of_step ih.1 hstep, ih.2.trans (sameOrder_of_step ih.1 hstep)⟩

theorem rightUnique_stepBoth : Relator.RightUnique StepBoth := by
  intro p q r hq hr
  exact Prod.ext (rightUnique_step hq.1 hr.1) (rightUnique_step hq.2 hr.2)

/-- Of two tokens that both streams come to, one starts before the other on both sides or on
neither. -/
theorem start_lt_iff_of_steps (hp : Abreast p) (hq : Relation.ReflTransGen StepBoth p q)
    (hr : Relation.ReflTransGen StepBoth p r) :
    q.2.token.span.start.offset < r.2.token.span.start.offset ↔
      q.1.token.span.start.offset < r.1.token.span.start.offset := by
  rcases Relation.ReflTransGen.total_of_right_unique rightUnique_stepBoth hq hr with h | h
  · exact (abreast_of_steps (abreast_of_steps hp hq).1 h).2.lt_iff
  · obtain ⟨hle, hle', -⟩ := (abreast_of_steps (abreast_of_steps hp hr).1 h).2
    omega

end TokenStream

end EcmaTree
