import EcmaTree.Proofs.Source.Slice
import EcmaTree.Proofs.Token.Abreast
import EcmaTree.Proofs.Token.Exact
import Mathlib.Data.List.Chain

/-!
# Calls of the reader

Whoever drives a token stream has two calls: to read a token in place of the current one, and to
record the current one and read the next. Either may fail, and the stream that a failed call
leaves behind can be called again. Among all streams that are come to in this way, a chunk of a
template is the current token only where the end of the chunk comes next, which is then read as
the token that it is. So a call that succeeds moves on, or is at the end of the text, or has read
an empty chunk, and never two empty chunks follow each other.
-/

namespace EcmaTree

namespace TokenStream

variable {text : List Char} {s t : TokenStream}

/-- The stream that a step leaves behind, also if it fails. -/
def leftBy : EStateM.Result ParseError TokenStream Unit → TokenStream
  | .ok _ t => t
  | .error _ t => t

/-- What a stream becomes by one call of the reader. -/
inductive Call (s : TokenStream) : TokenStream → Prop
  | read : Call s (leftBy (read s))
  | advance : Call s (leftBy (advance s))

/-- The streams that calls of the reader come to. -/
abbrev Called (text : List Char) : TokenStream → Prop :=
  Relation.ReflTransGen Call (ofText text)

theorem advance_eq (s : TokenStream) : advance s = read s.recorded :=
  rfl

/-- A call that succeeds ends behind the place where it began, or at the end of the text, or with
an empty chunk of a template. -/
def Progresses (text : List Char) (s t : TokenStream) : Prop :=
  s.cursor.offset < t.cursor.offset ∨
    (t.token.kind = .eof ∧ t.cursor.offset = byteLength text) ∨
    (t.token.kind = .template ∧ t.token.span.isEmpty = true)

/-- What recording a token and reading one preserve holds of all streams that calls come to. -/
theorem called_induction {P : TokenStream → Prop} (first : P (ofText text))
    (record : ∀ s, P s → P s.recorded) (read : ∀ s, P s → P (leftBy (read s)))
    (h : Called text s) : P s := by
  induction h with
  | refl => exact first
  | tail _ hcall ih =>
    cases hcall with
    | read => exact read _ ih
    | advance =>
      rw [advance_eq]
      exact read _ (record _ ih)

theorem isExact_of_called (h : Called text s) : s.IsExact text := by
  refine called_induction (isExact_ofText text) (fun _ => isExact_recorded) (fun s hs => ?_) h
  have hexact := endsExact_read hs
  cases hr : read s with
  | ok u t =>
    rw [hr] at hexact
    exact hexact
  | error e t =>
    rw [hr] at hexact
    exact hexact.2

/-- If a chunk of a template is the current token, its end comes next. -/
def FacesEnd (s : TokenStream) : Prop :=
  s.token.kind = .template → s.context.top = .quoteTemplate ∧ Template.AtChunkEnd s.cursor.rest

/-- Within a template the token is read where the cursor stands. -/
theorem read_of_within (h : s.context.top = .quoteTemplate) : read s = readHere s := by
  unfold read
  rw [if_pos (show s.context.top.preservesSpace = true by rw [h]; rfl)]

/-- Within a template, before the end of the text, the lexeme is one of the template. -/
theorem lexeme_of_within (h : s.context.top = .quoteTemplate) (hr : s.cursor.rest ≠ []) :
    s.lexeme = Template.read s.token.kind s.cursor.rest := by
  unfold lexeme Cursor.atEnd
  rw [if_neg (by simpa using hr), if_pos (by rw [h]; rfl)]

/-- Right behind a chunk the token that ends it is read. -/
theorem exists_read_of_chunk (hs : s.FacesEnd) (hk : s.token.kind = .template) :
    ∃ t, read s = .ok () t ∧ (t.token.kind = .backQuote ∨ t.token.kind = .dollarBraceL) ∧
      t.token.span.isEmpty = false := by
  obtain ⟨hwithin, hend⟩ := hs hk
  obtain ⟨l, hl, hkind, hpos⟩ := Template.exists_read_of_atChunkEnd hend
  have hr : s.cursor.rest ≠ [] := by
    rcases hend.cases with ⟨rest, hrest⟩ | ⟨rest, hrest⟩ <;> rw [hrest] <;> nofun
  have hlexeme : s.markStart.lexeme = .ok l := by
    rw [lexeme_of_within (s := s.markStart) hwithin hr, ← hl, ← hk]
    rfl
  refine ⟨s.markStart.accept l, ?_, hkind, ?_⟩
  · rw [read_of_within hwithin]
    exact readHere_of_lexeme hlexeme
  · have hlt := (Cursor.lt_pass l.lines hpos hr).1
    exact decide_eq_false (Nat.not_le_of_lt hlt)

/-- A step that fails changes neither the kind of the current token nor the contexts. -/
theorem of_read_error {e : ParseError} (h : read s = .error e t) :
    t.token.kind = s.token.kind ∧ t.context = s.context := by
  obtain ⟨m, hm, hleft⟩ := exists_of_read_error h
  have hkind : m.token.kind = s.token.kind := by rw [hm.token_eq]
  rcases hleft with rfl | ⟨bad, rfl⟩
  · exact ⟨hkind, hm.context_eq⟩
  · exact ⟨hkind, hm.context_eq⟩

/-- A chunk that has been read is followed by its end. -/
theorem facesEnd_of_read {u : Unit} (h : read s = .ok u t) : t.FacesEnd := by
  intro hk
  have hreads := reads_of_read h
  obtain ⟨m, l, hm, hl, rfl⟩ := of_read h
  have hkind : l.kind = .template := hk
  have hwithin : m.context.top = .quoteTemplate := by
    rw [hm.context_eq]
    cases hreads with
    | eof kind => rw [hk] at kind; cases kind
    | chunk within => exact within
    | solid _ ne_template => exact absurd hk ne_template
  have hr : m.cursor.rest ≠ [] := by
    intro hr
    unfold lexeme Cursor.atEnd at hl
    rw [if_pos (show m.markStart.cursor.rest.isEmpty = true from List.isEmpty_iff.mpr hr)] at hl
    cases hl
    cases hkind
  have hread : Template.read m.token.kind m.cursor.rest = .ok l :=
    (lexeme_of_within (s := m.markStart) hwithin hr).symm.trans hl
  refine ⟨(top_of_chunk _ _ _ hkind).trans hwithin, ?_⟩
  change Template.AtChunkEnd (m.cursor.pass l.length l.lines).rest
  rw [Cursor.pass_rest]
  rcases Template.kind_of_read hread with ⟨-, hend⟩ | hquote | hopening
  · exact hend
  · rw [hkind] at hquote
    cases hquote
  · rw [hkind] at hopening
    cases hopening

/-- No call behind a chunk fails, so a call that fails leaves no chunk behind. -/
theorem facesEnd_leftBy (hs : s.FacesEnd) : (leftBy (read s)).FacesEnd := by
  cases h : read s with
  | ok u t => exact facesEnd_of_read h
  | error e t =>
    intro hk
    have hk : t.token.kind = .template := hk
    rw [(of_read_error h).1] at hk
    obtain ⟨u, hu, -⟩ := exists_read_of_chunk hs hk
    rw [h] at hu
    cases hu

theorem facesEnd_of_called (h : Called text s) : s.FacesEnd :=
  called_induction (P := FacesEnd) nofun (fun _ hs => hs) (fun _ => facesEnd_leftBy) h

theorem progresses_of_read (hs : s.IsExact text) (h : read s = .ok () t) :
    Progresses text s t := by
  obtain ⟨hstart, -, hstop, -, -⟩ := places_of_read h
  cases reads_of_read h with
  | eof kind rest =>
    have hexact := endsExact_read hs
    rw [h] at hexact
    exact .inr (.inl ⟨kind, Cursor.offset_of_rest_eq_nil hexact.cursor.split rest⟩)
  | chunk within kind =>
    by_cases hempty : t.token.span.isEmpty = true
    · exact .inr (.inr ⟨kind, hempty⟩)
    · have hwide : ¬t.token.span.stop.offset ≤ t.token.span.start.offset :=
        fun hle => hempty (decide_eq_true hle)
      exact .inl (by omega)
  | solid _ _ _ wide => exact .inl (by omega)

/-- A run of steps is no longer than what its first stream has pending. -/
theorem length_le_of_isChain {first : TokenStream} {more : List TokenStream}
    (h : (first :: more).IsChain Step) : (first :: more).length ≤ first.pending + 1 := by
  induction more generalizing first with
  | nil => exact Nat.le_add_left _ _
  | cons next more ih =>
    obtain ⟨hstep, hmore⟩ := List.isChain_cons_cons.mp h
    have hlt := pending_lt hstep
    have hlength := ih hmore
    rw [List.length_cons]
    omega

theorem length_le_of_run {states : List TokenStream} (h : states.IsChain Step)
    (hfirst : ∀ s ∈ states.head?, read (ofText text) = .ok () s) :
    states.length ≤ 2 * byteLength text + 1 := by
  cases states with
  | nil => exact Nat.zero_le _
  | cons first more =>
    have hlength := length_le_of_isChain h
    have hpending := pending_first (hfirst first rfl)
    have hbytes := length_le_byteLength text
    omega

/-- The trail of a text is a run of steps from its first token, and only the end of input or an
error ends it. -/
theorem trail_isChain {fuel : Nat} (hfuel : s.pending ≤ fuel) :
    (follow fuel s).states.IsChain Step ∧ (follow fuel s).states.head? = some s ∧
      ((follow fuel s).error = none → (follow fuel s).final.token.kind = .eof) := by
  refine follow_induction (P := fun s trail => trail.states.IsChain Step ∧
    trail.states.head? = some s ∧ (trail.error = none → trail.final.token.kind = .eof))
    ?_ ?_ ?_ hfuel
  · intro s hk
    exact ⟨.singleton _, rfl, fun _ => hk⟩
  · intro s e t _ _
    exact ⟨.singleton _, rfl, nofun⟩
  · rintro s t ⟨states, error, final⟩ hstep ⟨hchain, hhead, hend⟩
    obtain ⟨more, rfl⟩ := List.head?_eq_some_iff.mp hhead
    exact ⟨List.isChain_cons_cons.mpr ⟨hstep, hchain⟩, rfl, hend⟩

/-- Every call that succeeds makes progress; behind a chunk of a template, empty or not, a call
succeeds and reads the token that ends the chunk; and a text of `n` bytes has no run of more than
`2 * n + 1` tokens, so the trail of the text ends at the end of input or with an error. -/
theorem progresses_of_called (text : List Char) :
    (∀ s t, Called text s → read s = .ok () t ∨ advance s = .ok () t → Progresses text s t) ∧
    (∀ s, Called text s → s.token.kind = .template → ∀ call ∈ [read, advance],
      ∃ t, call s = .ok () t ∧ (t.token.kind = .backQuote ∨ t.token.kind = .dollarBraceL) ∧
        t.token.span.isEmpty = false) ∧
    (∀ states : List TokenStream, states.IsChain Step →
      (∀ s ∈ states.head?, read (ofText text) = .ok () s) →
      states.length ≤ 2 * byteLength text + 1) ∧
    (scan text).states.length ≤ 2 * byteLength text + 1 ∧
    ((scan text).error = none → (scan text).final.token.kind = .eof) := by
  refine ⟨?_, ?_, fun _ => length_le_of_run, ?_⟩
  · intro s t hs hcall
    have hexact := isExact_of_called hs
    rcases hcall with hread | hadvance
    · exact progresses_of_read hexact hread
    · exact progresses_of_read (s := s.recorded) (isExact_recorded hexact) hadvance
  · intro s hs hk call hcall
    have hfaces := facesEnd_of_called hs
    rcases List.mem_pair.mp hcall with rfl | rfl
    · exact exists_read_of_chunk hfaces hk
    · exact exists_read_of_chunk (s := s.recorded) hfaces hk
  · cases h : read (ofText text) with
    | error e s =>
      have hscan : scan text = ⟨[], some e, s⟩ := by
        unfold scan
        rw [h]
      rw [hscan]
      exact ⟨Nat.zero_le _, nofun⟩
    | ok u s =>
      obtain ⟨hchain, hhead, hend⟩ := trail_isChain (Nat.le_refl s.pending)
      rw [scan_eq_follow h]
      refine ⟨length_le_of_run hchain fun first hfirst => ?_, hend⟩
      rw [hhead] at hfirst
      cases hfirst
      exact h

/-- Behind the empty chunk at the front of a template the opening of an expression is read. -/
theorem progresses_of_called_emptyChunk :
    ∃ s, Called "`$\x7ba\x7d`".toList s ∧ s.token.kind = .template ∧ s.token.span.isEmpty = true ∧
      ∃ t, advance s = .ok () t ∧ (t.token.kind = .backQuote ∨ t.token.kind = .dollarBraceL) ∧
        t.token.span.isEmpty = false := by
  let first := leftBy (read (ofText "`$\x7ba\x7d`".toList))
  have hs : Called "`$\x7ba\x7d`".toList (leftBy (advance first)) :=
    (Relation.ReflTransGen.single .read).tail .advance
  have hk : (leftBy (advance first)).token.kind = .template := by decide
  exact ⟨_, hs, hk, by decide,
    (progresses_of_called _).2.1 _ hs hk advance (List.mem_pair.mpr (.inr rfl))⟩

end TokenStream

end EcmaTree
