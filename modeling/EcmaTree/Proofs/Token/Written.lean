import EcmaTree.Proofs.Source.Slice
import EcmaTree.Proofs.Token.Trail

/-!
# Words and the text they are written in

A word is a token apart from its place. A stream shows the words from its current token on up to
the end of input, and no line break comes before an operator that could stand after its operand.
A text is written in words if each of them is what is read where it stands, with nothing but
spaces in between; the stream at the start of such a text shows its words.
-/

namespace EcmaTree

/-- What is read of a token, apart from its place. -/
structure Word where
  kind : TokenKind
  value : TokenValue
  text : List Char

/-- A comment begins with the text. -/
def BeginsComment : List Char → Prop
  | '/' :: c :: _ => c = '/' ∨ c = '*'
  | _ => False

/-- In front of the text `following` the word is read as it is, and is not taken for a blank or a
comment. -/
structure Word.IsRead (allowed : Bool) (w : Word) (following : List Char) : Prop where
  solid : ∃ c more, w.text = c :: more ∧ isBlank c = false
  plain : ¬BeginsComment (w.text ++ following)
  lexeme : Lexeme.read allowed (w.text ++ following) = .ok ⟨w.kind, w.value, w.text.length, .zero⟩

namespace TokenStream

variable {s t : TokenStream} {words : List Word} {c : ContextStack} {k : TokenKind}
  {text : List Char}

/-- The words ahead of a stream, its current token being the first of them. -/
inductive Shows : List Word → TokenStream → Prop
  | done {s : TokenStream} (kind : s.token.kind = .eof) : Shows [] s
  | word {s t : TokenStream} {w : Word} {words : List Word}
      (kind : s.token.kind = w.kind) (value : s.token.value = w.value)
      (text : s.token.text = w.text) (line : w.kind = .incDec → s.afterLineBreak = false)
      (step : Step s t) (more : Shows words t) : Shows (w :: words) s

/-- From the current token on no line break comes. -/
def OnOneLine (s : TokenStream) : Prop :=
  ∀ t, Follows s t → t.afterLineBreak = false

theorem onOneLine_of_step (hs : s.afterLineBreak = false) (h : ∀ t, Step s t → t.OnOneLine) :
    s.OnOneLine := by
  intro u hf
  cases hf.cases_head with
  | inl heq => exact heq ▸ hs
  | inr hmore =>
    obtain ⟨t, hstep, hf⟩ := hmore
    exact h t hstep u hf

/-- A stream that comes later shows some of the words that are left. -/
theorem exists_shows_of_follows (h : s.Shows words) (hf : Follows s t) :
    ∃ left, left <:+ words ∧ t.Shows left := by
  induction hf using Relation.ReflTransGen.head_induction_on generalizing words with
  | refl => exact ⟨words, List.suffix_rfl, h⟩
  | head hstep _ ih =>
    cases h with
    | done kind => exact absurd kind hstep.1
    | word _ _ _ _ step more =>
      cases rightUnique_step hstep step
      obtain ⟨left, hleft, hshows⟩ := ih more
      exact ⟨left, hleft.trans (List.suffix_cons _ _), hshows⟩

/-- The text is written in the words, where it is read with the contexts `c` after a token of
kind `k`. -/
inductive Written : ContextStack → TokenKind → List Char → List Word → Prop
  | done {c : ContextStack} {k : TokenKind} : Written c k [] []
  | space {c : ContextStack} {k : TokenKind} {text : List Char} {words : List Word}
      (outside : c.top ≠ .quoteTemplate) (more : Written c k text words) :
      Written c k (' ' :: text) words
  | word {c : ContextStack} {k : TokenKind} {w : Word} {text : List Char} {words : List Word}
      (outside : c.top ≠ .quoteTemplate)
      (isRead : w.IsRead c.expressionAllowed text)
      (more : Written (c.step k w.kind false) w.kind text words) :
      Written c k (w.text ++ text) (w :: words)

/-- Outside the text of a template what comes before a token is skipped. -/
theorem read_of_skipTrivia (hs : s.context.top ≠ .quoteTemplate)
    (h : skipTrivia s.cursor.rest.length s = .ok () t) : read s = readHere t := by
  have hspace : ¬s.context.top.preservesSpace = true := fun h => hs (eq_of_beq h)
  unfold read
  rw [if_neg hspace, h]

/-- A space before a token is skipped. -/
theorem read_of_space (hs : s.context.top ≠ .quoteTemplate) (hr : s.cursor.rest = ' ' :: text) :
    read s = read { s with cursor := s.cursor.skip 1 } := by
  have hrest : (s.cursor.skip 1).rest = text := by
    rw [Cursor.skip_rest, hr, List.drop_one, List.tail_cons]
  have hskip : skipTrivia s.cursor.rest.length s =
      skipTrivia (s.cursor.skip 1).rest.length { s with cursor := s.cursor.skip 1 } := by
    rw [hr, hrest]
    simp [skipTrivia, hr, isBlank, isWhiteSpace, isLineTerminator]
  have hspace : ¬s.context.top.preservesSpace = true := fun h => hs (eq_of_beq h)
  unfold read
  rw [if_neg hspace, if_neg hspace, hskip]

/-- At a character that begins a token nothing is skipped. -/
theorem skipTrivia_of_solid {ch : Char} {more : List Char} (hr : s.cursor.rest = ch :: more)
    (hblank : isBlank ch = false) (hplain : ¬BeginsComment s.cursor.rest) (fuel : Nat) :
    skipTrivia fuel s = .ok () s := by
  have hcomment : ∀ next, (next = '/' ∨ next = '*') →
      (ch == '/' && more.head? == some next) = false := by
    intro next hnext
    refine Bool.eq_false_iff.mpr fun h => hplain ?_
    obtain ⟨hc, hm⟩ := Bool.and_eq_true_iff.mp h
    obtain ⟨after, rfl⟩ := List.head?_eq_some_iff.mp (eq_of_beq hm)
    rw [hr, eq_of_beq hc]
    exact hnext
  have hterminator : isLineTerminator ch = false :=
    Bool.eq_false_iff.mpr fun h => Bool.eq_false_iff.mp hblank (isBlank_of_terminator h)
  have hreturn : (ch == '\r') = false := by
    refine beq_eq_false_iff_ne.mpr ?_
    rintro rfl
    cases hterminator
  cases fuel with
  | zero => rfl
  | succ fuel =>
    simp only [skipTrivia, hr, hreturn, hterminator, hcomment '/' (.inl rfl),
      hcomment '*' (.inr rfl), hblank, Bool.false_eq_true, if_false]

/-- No line ends between the previous token and the cursor. -/
def IsOnLine (s : TokenStream) : Prop :=
  ∃ gap, s.behindLast = gap ++ s.cursor.rest ∧ s.cursor.offset = s.lastStop + byteLength gap ∧
    hasLineBreak gap = false

/-- A token on the line on which the one before ends. -/
theorem not_afterLineBreak_markStart (hline : s.IsOnLine) :
    s.markStart.afterLineBreak = false := by
  obtain ⟨gap, hbehind, hoffset, hplain⟩ := hline
  have hgap : s.markStart.gap = gap := by
    change (takeBytes (s.cursor.offset - s.lastStop) s.behindLast).getD [] = gap
    rw [hoffset, Nat.add_sub_cancel_left, hbehind, takeBytes_append]
    rfl
  unfold afterLineBreak
  rw [hgap, hplain]

/-- Behind a token that has just been recorded its line goes on. -/
theorem isOnLine_recorded (hbehind : s.behind = s.cursor.rest)
    (hstop : s.token.span.stop.offset = s.cursor.offset) : s.recorded.IsOnLine :=
  ⟨[], hbehind, hstop.symm, rfl⟩

/-- The word at the cursor is read. -/
theorem read_of_isRead {w : Word} (hs : s.context.top ≠ .quoteTemplate)
    (hr : s.cursor.rest = w.text ++ text) (hw : w.IsRead s.context.expressionAllowed text) :
    read s = .ok () (s.markStart.accept ⟨w.kind, w.value, w.text.length, .zero⟩) := by
  obtain ⟨ch, more, htext, hblank⟩ := hw.solid
  have hcons : s.cursor.rest = ch :: (more ++ text) := by rw [hr, htext, List.cons_append]
  have hlexeme : s.markStart.lexeme = .ok ⟨w.kind, w.value, w.text.length, .zero⟩ := by
    have hend : s.markStart.cursor.atEnd = false := by
      change s.cursor.rest.isEmpty = false
      rw [hcons]
      rfl
    have hquote : (s.markStart.context.top == .quoteTemplate) = false := beq_eq_false_iff_ne.mpr hs
    unfold lexeme
    rw [hend, hquote]
    change Lexeme.read s.context.expressionAllowed s.cursor.rest = _
    rw [hr, hw.lexeme]
  rw [read_of_skipTrivia hs (skipTrivia_of_solid hcons hblank (hr ▸ hw.plain) _)]
  exact readHere_of_lexeme hlexeme

/-- At the end of the text the end of input is read. -/
theorem exists_read_of_end (hr : s.cursor.rest = []) (hline : s.IsOnLine) :
    ∃ t, read s = .ok () t ∧ t.Shows [] ∧ t.OnOneLine := by
  have hlexeme : s.markStart.lexeme = .ok ⟨.eof, .none, 0, .zero⟩ := by
    have hend : s.markStart.cursor.atEnd = true := List.isEmpty_iff.mpr hr
    unfold lexeme
    rw [hend]
    rfl
  refine ⟨s.markStart.accept ⟨.eof, .none, 0, .zero⟩, ?_, .done rfl,
    onOneLine_of_step (not_afterLineBreak_markStart hline) fun t h => absurd rfl h.1⟩
  unfold read
  split
  · exact readHere_of_lexeme hlexeme
  · rw [hr]
    exact readHere_of_lexeme hlexeme

/-- The stream at the start of a written text shows the words, with no line break between them. It
has to stand on the line on which the token before ends. -/
theorem exists_shows_of_written (h : Written c k text words) {s : TokenStream}
    (hr : s.cursor.rest = text) (hc : s.context = c) (hk : s.token.kind = k)
    (hline : s.IsOnLine) :
    ∃ t, read s = .ok () t ∧ t.Shows words ∧ t.OnOneLine := by
  induction h generalizing s with
  | done => exact exists_read_of_end hr hline
  | @space c k text words outside _ ih =>
    rw [read_of_space (hc ▸ outside) hr]
    have hrest : (s.cursor.skip 1).rest = text := by
      rw [Cursor.skip_rest, hr, List.drop_one, List.tail_cons]
    obtain ⟨gap, hbehind, hoffset, hplain⟩ := hline
    refine ih hrest hc hk ⟨gap ++ [' '], ?_, ?_, hasLineBreak_append.mpr ⟨hplain, rfl⟩⟩
    · rw [hbehind, hrest, hr, List.append_assoc, List.singleton_append]
    · change (s.cursor.skip 1).offset = s.lastStop + _
      rw [Cursor.skip_offset, hoffset, hr, byteLength_append, Nat.add_assoc]
      rfl
  | @word c k w text words outside isRead _ ih =>
    subst hc hk
    have hread := read_of_isRead outside hr isRead
    have hafter : s.markStart.afterLineBreak = false := not_afterLineBreak_markStart hline
    refine ⟨_, hread, ?_⟩
    have hnext := ih
      (s := (s.markStart.accept ⟨w.kind, w.value, w.text.length, .zero⟩).recorded)
      (by
        change (s.cursor.skip w.text.length).rest = text
        rw [Cursor.skip_rest, hr, List.drop_left])
      (by
        change s.context.step s.token.kind w.kind s.markStart.afterLineBreak = _
        rw [hafter])
      rfl (isOnLine_recorded rfl rfl)
    obtain ⟨t, ht, hshows, hrest⟩ := hnext
    have hkind : w.kind ≠ .eof := by
      obtain ⟨ch, more, htext, -⟩ := isRead.solid
      have hlexeme := isRead.lexeme
      rw [htext, List.cons_append] at hlexeme
      exact (Lexeme.isSolid_of_read hlexeme).ne_eof
    refine ⟨.word rfl rfl ?_ (fun _ => hafter) ⟨hkind, ht⟩ hshows,
      onOneLine_of_step hafter fun u hstep => rightUnique_step ⟨hkind, ht⟩ hstep ▸ hrest⟩
    change s.cursor.rest.take w.text.length = w.text
    rw [hr, List.take_left]

/-- A text written in words from its start on shows them at its first token. -/
theorem exists_shows_of_text (h : Written .initial .eof text words) :
    ∃ s, read (ofText text) = .ok () s ∧ s.Shows words ∧ s.OnOneLine :=
  exists_shows_of_written h rfl rfl rfl ⟨[], rfl, rfl, rfl⟩

end TokenStream

end EcmaTree
