import EcmaTree.Proofs.Token.Balance
import EcmaTree.Proofs.Token.Calls

/-!
# Templates that are open at the end of a text

The end of the text is looked for before a token is read, and again within a chunk of a template.
Where a chunk has begun and has no end, the text is refused as an unterminated template. Where
none of it has begun, the end of input is read like anywhere else, and the template stays open:
behind the backquote that opens it, or behind what closes an expression in it.
-/

namespace EcmaTree.TokenStream

variable {text : List Char} {s t first : TokenStream} {fuel : Nat}

/-- Within a template a chunk is read, a token that ends one, or the end of input. -/
theorem kind_of_within {u : Unit} (hs : s.context.top = .quoteTemplate) (h : read s = .ok u t) :
    (t.token.kind = .eof ∧ s.cursor.rest = []) ∨ t.token.kind = .template ∨
      t.token.kind = .backQuote ∨ t.token.kind = .dollarBraceL := by
  rw [read_of_within hs] at h
  unfold readHere at h
  dsimp only at h
  split at h
  case h_2 => cases h
  rename_i l hl
  cases h
  by_cases hr : s.cursor.rest = []
  · unfold lexeme Cursor.atEnd at hl
    rw [if_pos (show s.markStart.cursor.rest.isEmpty = true from List.isEmpty_iff.mpr hr)] at hl
    cases hl
    exact .inl ⟨rfl, hr⟩
  · rw [lexeme_of_within (s := s.markStart) hs hr] at hl
    rcases Template.kind_of_read hl with ⟨hk, -⟩ | hk
    · exact .inr (.inl hk)
    · exact .inr (.inr hk)

/-- What may be read last where a template is open: its backquote, or what closes an expression
in it, unless it was open before. -/
theorem kind_of_open {u : Unit} (h : read s = .ok u t) (ht : t.context.top = .quoteTemplate) :
    t.token.kind = .backQuote ∨ t.token.kind.closesContext = true ∨
      s.context.top = .quoteTemplate ∧
        ((t.token.kind = .eof ∧ s.cursor.rest = []) ∨ t.token.kind = .template) := by
  obtain ⟨-, allowed, afterLineBreak, hcontext⟩ := liesBehind_of_read h
  have hstack := congrArg ContextStack.stack hcontext
  -- A token other than those named leaves the template open only if it was open before.
  have unchanged : t.context.stack = s.context.stack → t.token.kind ≠ .dollarBraceL →
      t.token.kind = .backQuote ∨ t.token.kind.closesContext = true ∨
        s.context.top = .quoteTemplate ∧
          ((t.token.kind = .eof ∧ s.cursor.rest = []) ∨ t.token.kind = .template) := by
    intro heq hne
    have hs : s.context.top = .quoteTemplate := by
      unfold ContextStack.top at ht ⊢
      rwa [heq] at ht
    rcases kind_of_within hs h with hend | hchunk | hquote | hopening
    · exact .inr (.inr ⟨hs, .inl hend⟩)
    · exact .inr (.inr ⟨hs, .inr hchunk⟩)
    · exact .inl hquote
    · exact absurd hopening hne
  -- A token that opens another context hides the template.
  have hidden : ∀ {context below}, t.context.stack = context :: below →
      context ≠ .quoteTemplate → False := by
    intro context below heq hne
    unfold ContextStack.top at ht
    rw [heq] at ht
    exact hne ht
  cases hopens : t.token.kind.opensContext with
  | false =>
    rw [ContextStack.stack_step _ _ _ hopens] at hstack
    cases hcloses : t.token.kind.closesContext with
    | true => exact .inr (.inl rfl)
    | false =>
      rw [ContextStack.closedBy, hcloses] at hstack
      rw [hcloses] at unchanged
      refine unchanged hstack fun hk => ?_
      rw [hk] at hopens
      cases hopens
  | true =>
    cases hk : t.token.kind with
    | backQuote => exact .inl rfl
    | braceL =>
      rw [hk] at hstack
      obtain ⟨context, ⟨-, hne⟩, -, heq⟩ := ContextStack.stack_step_braceL
        ⟨s.context.stack, allowed⟩ s.token.kind afterLineBreak
      exact (hidden (hstack.trans heq) hne).elim
    | parenL =>
      rw [hk] at hstack
      obtain ⟨context, ⟨-, hne⟩, -, heq⟩ := ContextStack.stack_step_parenL
        ⟨s.context.stack, allowed⟩ s.token.kind afterLineBreak
      exact (hidden (hstack.trans heq) hne).elim
    | dollarBraceL =>
      rw [hk] at hstack
      exact (hidden hstack nofun).elim
    | keyword word =>
      rw [hk] at hopens
      cases word with
      | function =>
        rw [hk] at hstack
        rcases ContextStack.stack_step_function ⟨s.context.stack, allowed⟩ s.token.kind
          afterLineBreak with heq | heq
        · rw [← hk]
          exact unchanged (hstack.trans heq) (by rw [hk]; nofun)
        · exact (hidden (hstack.trans heq) nofun).elim
      | _ => cases hopens
    | _ =>
      rw [hk] at hopens
      cases hopens

/-- The end of input leaves the contexts as they are. -/
theorem top_of_eof {u : Unit} (h : read s = .ok u t) (hk : t.token.kind = .eof) :
    t.context.top = s.context.top := by
  have hstack := (liesBehind_of_read h).lies.stack_eq (by rw [hk]; rfl)
  rw [hk] at hstack
  unfold ContextStack.top
  rw [hstack]
  rfl

/-- Every stream of a trail has read its token. -/
theorem exists_read_of_mem {m : TokenStream} {u : Unit} (hfuel : first.pending ≤ fuel)
    (hfirst : read m = .ok u first) (h : s ∈ (follow fuel first).states) :
    ∃ m, read m = .ok () s := by
  refine follow_induction (P := fun first trail => (∃ m, read m = .ok () first) →
    ∀ s ∈ trail.states, ∃ m, read m = .ok () s) ?_ ?_ ?_ hfuel ⟨m, hfirst⟩ s h
  · intro first _ hread s hs
    rwa [List.mem_singleton.mp hs]
  · intro first e t _ _ hread s hs
    rwa [List.mem_singleton.mp hs]
  · intro first next trail hstep ih hread s hs
    rcases List.mem_cons.mp hs with rfl | hs
    · exact hread
    · exact ih ⟨_, hstep.2⟩ s hs

/-- A trail without an error ends with its first stream or one step behind one of its streams. -/
theorem final_of_follow (hfuel : first.pending ≤ fuel) (h : (follow fuel first).error = none) :
    (follow fuel first).final = first ∨
      ∃ s ∈ (follow fuel first).states, Step s (follow fuel first).final := by
  refine follow_induction (P := fun first trail => trail.error = none →
    trail.final = first ∨ ∃ s ∈ trail.states, Step s trail.final) ?_ ?_ ?_ hfuel h
  · intro first _ _
    exact .inl rfl
  · intro first e t _ _ herror
    cases herror
  · intro first next trail hstep ih herror
    right
    rcases ih herror with heq | ⟨s, hs, hfinal⟩
    · exact ⟨first, List.mem_cons_self, heq ▸ hstep⟩
    · exact ⟨s, List.mem_cons_of_mem _ hs, hfinal⟩

/-- The error that ends a trail is that of the one stream in it whose next step fails. -/
theorem error_of_mem {e : ParseError} (hfuel : first.pending ≤ fuel)
    (h : s ∈ (follow fuel first).states) (hs : s.token.kind ≠ .eof)
    (hbad : advance s = .error e t) : (follow fuel first).error = some e := by
  refine follow_induction (P := fun _ trail => s ∈ trail.states → trail.error = some e)
    ?_ ?_ ?_ hfuel h
  · intro first hk hmem
    rw [List.mem_singleton.mp hmem] at hs
    exact absurd hk hs
  · intro first e' t' _ ha hmem
    rw [List.mem_singleton.mp hmem, ha] at hbad
    cases hbad
    rfl
  · intro first next trail hstep ih hmem
    rcases List.mem_cons.mp hmem with rfl | hmem
    · rw [hstep.2] at hbad
      cases hbad
    · exact ih hmem

/-- A chunk that has begun and has no end is an unterminated template. -/
theorem advance_of_endless (hs : s.context.top = .quoteTemplate) (hr : s.cursor.rest ≠ [])
    (hend : Template.chunkLength false s.cursor.rest = none) :
    ∃ t, advance s = .error ⟨.unterminatedTemplate, s.cursor.place⟩ t := by
  obtain ⟨lines, hchunk⟩ := Template.readChunk_of_chunkLength hend
  have hlexeme : s.recorded.markStart.lexeme =
      .error ⟨.unterminatedTemplate, 0, s.cursor.rest.length, lines⟩ := by
    rw [lexeme_of_within (s := s.recorded.markStart) hs hr]
    change Template.read s.token.kind s.cursor.rest = _
    unfold Template.read
    rw [hchunk]
  rw [advance_eq, read_of_within (s := s.recorded) hs]
  unfold readHere
  dsimp only
  rw [hlexeme]
  exact ⟨_, rfl⟩

/-- A template is open at the end of a text that is read without an error exactly if the text ends
behind the backquote that opens the template, or behind what closes an expression in it. As soon
as a chunk has begun there, the text is refused as an unterminated template. -/
theorem openTemplate_of_scan (text : List Char) :
    ((scan text).error = none →
      ((scan text).final.context.top = .quoteTemplate ↔
        ∃ s ∈ (scan text).states, Step s (scan text).final ∧ s.context.top = .quoteTemplate ∧
          s.cursor.rest = [] ∧ (s.token.kind = .backQuote ∨ s.token.kind.closesContext = true))) ∧
    ∀ s ∈ (scan text).states, s.context.top = .quoteTemplate → s.cursor.rest ≠ [] →
      Template.chunkLength false s.cursor.rest = none →
      (scan text).error = some ⟨.unterminatedTemplate, s.cursor.place⟩ := by
  constructor
  · intro herror
    obtain ⟨first, hfirst⟩ := exists_first herror
    rw [scan_eq_follow hfirst] at herror ⊢
    obtain ⟨-, heof, -⟩ := of_follow (Nat.le_refl _) herror
    constructor
    · intro htop
      rcases final_of_follow (Nat.le_refl _) herror with heq | ⟨s, hmem, hstep⟩
      · -- The first token lies in the lowest context, which is no template.
        rw [heq] at heof htop
        rw [top_of_eof hfirst heof] at htop
        cases htop
      have hs : s.context.top = .quoteTemplate := (top_of_eof hstep.2 heof).symm.trans htop
      refine ⟨s, hmem, hstep, hs, ?_, ?_⟩
      · rcases kind_of_within (s := s.recorded) hs hstep.2 with ⟨-, hr⟩ | hk | hk | hk
        · exact hr
        all_goals
          rw [heof] at hk
          cases hk
      · obtain ⟨m, hm⟩ := exists_read_of_mem (Nat.le_refl _) hfirst hmem
        rcases kind_of_open hm hs with hk | hk | ⟨hwithin, ⟨hk, -⟩ | hk⟩
        · exact .inl hk
        · exact .inr hk
        · exact absurd hk hstep.1
        · -- Behind a chunk the end of the chunk is read and not the end of input.
          have hfaces := facesEnd_of_read hm
          obtain ⟨next, hnext, hkind, -⟩ := exists_read_of_chunk (s := s.recorded) hfaces hk
          rw [← advance_eq, hstep.2] at hnext
          cases hnext
          rcases hkind with hkind | hkind <;> rw [heof] at hkind <;> cases hkind
    · rintro ⟨s, -, hstep, hs, -⟩
      exact (top_of_eof hstep.2 heof).trans hs
  · intro s hmem hs hr hend
    cases hfirst : read (ofText text) with
    | error e t =>
      unfold scan at hmem
      rw [hfirst] at hmem
      cases hmem
    | ok u first =>
      rw [scan_eq_follow hfirst] at hmem ⊢
      obtain ⟨t, hbad⟩ := advance_of_endless hs hr hend
      refine error_of_mem (Nat.le_refl _) hmem (fun hk => ?_) hbad
      obtain ⟨m, hm⟩ := exists_read_of_mem (Nat.le_refl _) hfirst hmem
      cases reads_of_read hm with
      | eof _ rest => exact hr rest
      | chunk _ kind =>
        rw [hk] at kind
        cases kind
      | solid ne_eof => exact ne_eof hk

/-- A text of one backquote is read without an error, with the template open. -/
theorem openTemplate_of_scan_backQuote :
    (scan ['\x60']).error = none ∧ ∃ s ∈ (scan ['\x60']).states,
      Step s (scan ['\x60']).final ∧ s.context.top = .quoteTemplate ∧ s.cursor.rest = [] ∧
        (s.token.kind = .backQuote ∨ s.token.kind.closesContext = true) := by
  have herror : (scan ['\x60']).error = none := by decide
  have htop : (scan ['\x60']).final.context.top = .quoteTemplate := by decide
  exact ⟨herror, ((openTemplate_of_scan _).1 herror).mp htop⟩

end EcmaTree.TokenStream
