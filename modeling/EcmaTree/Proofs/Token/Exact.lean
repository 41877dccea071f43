import EcmaTree.Proofs.Token.Count
import Mathlib.Logic.Relation

/-!
# Exact places in a token stream

All places in a token stream are places of its cursor, now or at an earlier time. What is skipped
and what is read as a token counts the lines in itself as the line map does, so the cursor agrees
with the map behind it, and places are exact in every stream that reading a text can come to:
between blanks, comments and tokens, and after a step that has failed.
-/

namespace EcmaTree.TokenStream

variable {text : List Char} {s t : TokenStream}

/-- A stream whose cursor has come through a part of the text, and in which all places are
exact. -/
structure IsExact (text : List Char) (s : TokenStream) : Prop where
  cursor : s.cursor.Reads text
  token : s.token.span.IsExact text
  last : ∀ span ∈ s.last, span.IsExact text
  tokens : ∀ token ∈ s.tokens, token.span.IsExact text
  comments : ∀ comment ∈ s.comments, comment.span.IsExact text
  leading : ∀ comment ∈ s.leading, comment.span.IsExact text
  trailing : ∀ comment ∈ s.trailing, comment.span.IsExact text

/-- What a token stream does: it skips a blank, a line break or a comment, records its token, or
reads one. -/
inductive Move (s : TokenStream) : TokenStream → Prop
  | skip {t : TokenStream} (h : Skip s t) : Move s t
  | record : Move s s.recorded
  | read {t : TokenStream} (h : read s = .ok () t) : Move s t
  | fail {t : TokenStream} {e : ParseError} (h : read s = .error e t) : Move s t

/-- The streams that reading a text can come to. -/
abbrev Reachable (text : List Char) : TokenStream → Prop :=
  Relation.ReflTransGen Move (ofText text)

theorem isExact_ofText (text : List Char) : (ofText text).IsExact text where
  cursor := Cursor.reads_ofText text
  token := ⟨Cursor.isExact_origin text, Cursor.isExact_origin text⟩
  last := nofun
  tokens _ h := absurd h (Array.not_mem_empty _)
  comments _ h := absurd h (Array.not_mem_empty _)
  leading _ h := absurd h (Array.not_mem_empty _)
  trailing _ h := absurd h (Array.not_mem_empty _)

theorem isExact_withCursor {c : Cursor} (h : s.IsExact text) (hc : c.Reads text) :
    IsExact text { s with cursor := c } :=
  { h with cursor := hc }

theorem isExact_addComment {kind : CommentKind} {content : List Char} {n : Nat}
    {lines : LineCount} (h : s.IsExact text) (hcounts : lines.Counts n s.cursor.rest) :
    (s.addComment kind content n lines).IsExact text := by
  have hcursor : (s.cursor.pass n lines).Reads text := hcounts text s.cursor h.cursor rfl
  have hpush : ∀ {comments : Array Comment}, (∀ comment ∈ comments, comment.span.IsExact text) →
      ∀ comment ∈ comments.push ⟨kind, String.ofList content,
        ⟨s.cursor.place, (s.cursor.pass n lines).place⟩⟩, comment.span.IsExact text := by
    intro comments hcomments comment hmem
    rcases Array.mem_push.mp hmem with hmem | rfl
    · exact hcomments comment hmem
    · exact ⟨h.cursor.place, hcursor.place⟩
  exact ⟨hcursor, h.token, h.last, h.tokens, hpush h.comments, hpush h.leading, hpush h.trailing⟩

theorem isExact_skip (hs : s.IsExact text) (h : Skip s t) : t.IsExact text := by
  cases h with
  | blank rest_eq _ plain =>
    refine isExact_withCursor hs (Cursor.reads_skip hs.cursor ?_)
    rw [rest_eq]
    exact plain_take_cons plain rfl
  | newLine rest_eq terminator =>
    exact isExact_withCursor hs (Cursor.reads_newLine hs.cursor rest_eq terminator)
  | comment _ counts => exact isExact_addComment hs counts

theorem isExact_recorded (h : s.IsExact text) : s.recorded.IsExact text where
  cursor := h.cursor
  token := h.token
  last := by
    rintro _ ⟨⟩
    exact h.token
  tokens := by
    intro token hmem
    rcases Array.mem_push.mp hmem with hmem | rfl
    · exact h.tokens token hmem
    · exact h.token
  comments := h.comments
  leading := h.leading
  trailing := h.trailing

/-- A step that ends with exact places, and fails only at an exact place. -/
def EndsExact (text : List Char) : EStateM.Result ParseError TokenStream Unit → Prop
  | .ok _ t => t.IsExact text
  | .error e t => e.place.IsExact text ∧ t.IsExact text

theorem endsExact_skipTrivia {fuel : Nat} (hs : s.IsExact text) :
    EndsExact text (skipTrivia fuel s) := by
  induction fuel generalizing s with
  | zero => exact hs
  | succ fuel ih =>
    rcases skipTrivia_cases s with hdone | hbad | ⟨m, hm, hrest⟩
    · rw [hdone]
      exact hs
    · rw [hbad]
      exact ⟨hs.cursor.place, hs⟩
    · rw [hrest]
      exact ih (isExact_skip hs hm)

theorem isExact_markStart (h : s.IsExact text) : s.markStart.IsExact text :=
  { h with token := ⟨h.cursor.place, h.token.stop⟩ }

theorem isExact_accept {l : Lexeme} (hs : s.IsExact text)
    (hcounts : l.lines.Counts l.length s.cursor.rest) : (s.accept l).IsExact text := by
  have hcursor : (s.cursor.pass l.length l.lines).Reads text := hcounts text s.cursor hs.cursor rfl
  exact { isExact_withCursor hs hcursor with token := ⟨hs.cursor.place, hcursor.place⟩ }

/-- A place that is blamed has the line that the cursor has come to. -/
theorem isExact_blame {bad : LexicalFault} (hs : s.IsExact text)
    (hcounts : bad.CountsLines s.cursor.rest) : (s.blame bad).IsExact text := by
  unfold blame
  split
  · exact hs.cursor.place
  · rename_i hblamed
    have hreads : (s.cursor.pass bad.blamed bad.lines).Reads text :=
      hcounts.2.resolve_left hblamed text s.cursor hs.cursor rfl
    exact Cursor.place_pass bad.blamed bad.reached bad.lines s.cursor ▸ hreads.place

theorem endsExact_readHere (hs : s.IsExact text) : EndsExact text (readHere s) := by
  have hmark := isExact_markStart hs
  have hlexeme := countsLines_lexeme s.markStart
  unfold readHere
  dsimp only
  cases h : s.markStart.lexeme with
  | ok l =>
    rw [h] at hlexeme
    exact isExact_accept hmark hlexeme
  | error bad =>
    rw [h] at hlexeme
    exact ⟨isExact_blame hmark hlexeme,
      isExact_withCursor hmark (hlexeme.1 text _ hmark.cursor rfl)⟩

theorem endsExact_read (hs : s.IsExact text) : EndsExact text (read s) := by
  unfold read
  split
  · exact endsExact_readHere hs
  · have hskip : EndsExact text (skipTrivia s.cursor.rest.length s) := endsExact_skipTrivia hs
    split
    · rename_i m hm
      rw [hm] at hskip
      exact endsExact_readHere hskip
    · rename_i e m hm
      rw [hm] at hskip
      exact hskip

theorem endsExact_advance (hs : s.IsExact text) : EndsExact text (advance s) := by
  unfold advance
  exact endsExact_read (isExact_recorded hs)

theorem isExact_of_move (hs : s.IsExact text) (h : Move s t) : t.IsExact text := by
  cases h with
  | skip h => exact isExact_skip hs h
  | record => exact isExact_recorded hs
  | read h =>
    have hend := endsExact_read hs
    rw [h] at hend
    exact hend
  | fail h =>
    have hend := endsExact_read hs
    rw [h] at hend
    exact hend.2

theorem isExact_of_reachable (h : Reachable text s) : s.IsExact text := by
  induction h with
  | refl => exact isExact_ofText text
  | tail _ hmove ih => exact isExact_of_move ih hmove

end EcmaTree.TokenStream
