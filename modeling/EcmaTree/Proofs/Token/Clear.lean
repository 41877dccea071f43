import EcmaTree.Proofs.Source.Lines
import EcmaTree.Proofs.Token.Calls
import EcmaTree.Proofs.Token.Spelling
import EcmaTree.Proofs.Token.Tiling

/-!
# No token splits a line break

Only between a carriage return and its line feed can a place split a line break. Where blanks are
skipped, skipping does not stop before a line feed. And no token ends with a carriage return that a
line feed follows: a chunk of a template is followed by what ends it, a string literal ends with
its quote, and the other tokens have no line terminators. Errors are blamed on the start of a token
or of a comment, on a backslash, or on the name behind a number. So every place that a stream has
or blames lies on one line of the text, or at one of its ends.
-/

namespace EcmaTree

variable {text : List Char}

/-- An exact place that splits no line break. -/
structure Place.IsClear (text : List Char) (p : Place) : Prop where
  exact : p.IsExact text
  cut : ∃ before after, text = before ++ after ∧ p.offset = byteLength before ∧
    IsClearCut before after

namespace Cursor

variable {c : Cursor}

theorem isClear_of_head (h : c.Reads text) (hhead : c.rest.head? ≠ some '\n') :
    c.place.IsClear text := by
  obtain ⟨before, htext, hoffset⟩ := h.split
  exact ⟨h.place, before, c.rest, htext, hoffset, fun _ => hhead⟩

/-- From one clear place to the next, over characters that stand between two clear cuts. -/
theorem isClear_of_cut {p : Place} {n : Nat} (h : c.IsIn text) (hclear : c.place.IsClear text)
    (hp : p.IsExact text) (hoffset : p.offset = (c.skip n).offset)
    (hcut : IsClearCut (c.rest.take n) (c.rest.drop n)) : p.IsClear text := by
  obtain ⟨before, htext, hbefore⟩ := h
  obtain ⟨before', after, htext', hbefore', hclear⟩ := hclear.cut
  obtain ⟨rfl, rfl⟩ :=
    append_inj_of_byteLength (htext.symm.trans htext') (hbefore.symm.trans hbefore')
  refine ⟨hp, before ++ c.rest.take n, c.rest.drop n, ?_, ?_, ?_⟩
  · rw [List.append_assoc, List.take_append_drop, htext]
  · rw [byteLength_append, ← hbefore, hoffset]
    exact skip_offset n c
  · exact IsClearCut.append (by rwa [List.take_append_drop]) hcut

theorem isClear_origin (text : List Char) : Place.IsClear text ⟨0, 1, 0⟩ :=
  ⟨isExact_origin text, [], text, rfl, rfl, nofun⟩

end Cursor

theorem isClearCut_of_plain {n : Nat} (h : hasLineBreak (text.take n) = false) :
    IsClearCut (text.take n) (text.drop n) := by
  intro hlast
  have hreturn := List.any_eq_false.mp h _ (List.mem_of_getLast? hlast)
  exact absurd rfl hreturn

theorem isClearCut_zero : IsClearCut (text.take 0) (text.drop 0) :=
  nofun

/-- What stays on its line ends with no carriage return, and blames nothing behind one. -/
theorem StaysOnLine.isClearCut {result : Except LexicalFault Lexeme}
    (h : StaysOnLine text result) :
    (∀ l, result = .ok l → IsClearCut (text.take l.length) (text.drop l.length)) ∧
      ∀ bad, result = .error bad → IsClearCut (text.take bad.blamed) (text.drop bad.blamed) := by
  constructor
  · rintro l rfl
    exact isClearCut_of_plain h.2
  · rintro bad rfl
    exact isClearCut_of_plain h.2.2

namespace Quoted

variable {quote : Char} {bad : LexicalFault}

/-- A literal ends with its quote. -/
theorem isClearCut_of_read {l : Lexeme} (hq : quote = '\x22' ∨ quote = '\x27')
    (h : read quote text = .ok l) :
    IsClearCut ((quote :: text).take l.length) ((quote :: text).drop l.length) := by
  obtain ⟨quote', body, hquote, hwritten⟩ := isQuoted_of_read hq h
  intro hlast
  rw [hwritten, ← List.cons_append, List.getLast?_append, List.getLast?_singleton,
    Option.some_or] at hlast
  cases hlast
  rcases hquote with hquote | hquote <;> cases hquote

theorem of_map_error {α β : Type} {x : Except LexicalFault α} {f : α → β}
    (h : x.map f = .error bad) : x = .error bad := by
  cases x with
  | error e => exact congrArg Except.error (Except.error.inj h)
  | ok a => cases h

/-- The literal is blamed, or a backslash in it. -/
theorem blamed_of_readBody {done owed : Nat} {lines : LineCount}
    (h : readBody quote done owed lines text = .error bad) :
    bad.blamed = 0 ∨ ∃ n, bad.blamed = done + n ∧ (text.drop n).head? = some '\\' := by
  induction text generalizing done owed lines with
  | nil =>
    cases h
    exact .inl rfl
  | cons c rest ih =>
    have step : ∀ {owed' lines'}, readBody quote (done + 1) owed' lines' rest = .error bad →
        bad.blamed = 0 ∨ ∃ n, bad.blamed = done + n ∧ ((c :: rest).drop n).head? = some '\\' := by
      intro owed' lines' hr
      rcases ih hr with hzero | ⟨n, hn, hslash⟩
      · exact .inl hzero
      · exact .inr ⟨n + 1, by omega, hslash⟩
    unfold readBody at h
    split at h
    · exact step h
    split at h
    · cases h
    split at h
    · rename_i hslash
      split at h
      · exact step (of_map_error h)
      · cases h
        dsimp only
        split
        · exact .inr ⟨0, rfl, congrArg some (eq_of_beq hslash)⟩
        · exact .inl rfl
    split at h
    · cases h
      exact .inl rfl
    · exact step (of_map_error h)

theorem isClearCut_of_read_error (h : read quote text = .error bad) :
    IsClearCut ((quote :: text).take bad.blamed) ((quote :: text).drop bad.blamed) := by
  rcases blamed_of_readBody (of_map_error h) with hzero | ⟨n, hn, hslash⟩
  · rw [hzero]
    exact isClearCut_zero
  · intro _ hfeed
    rw [hn, Nat.add_comm, List.drop_succ_cons, hslash] at hfeed
    cases hfeed

end Quoted

namespace Lexeme

variable {allowed : Bool} {l : Lexeme} {bad : LexicalFault}

theorem isClearCut_of_read (h : Lexeme.read allowed text = .ok l) :
    IsClearCut (text.take l.length) (text.drop l.length) := by
  unfold Lexeme.read at h
  split at h
  · cases h
    exact isClearCut_zero
  split at h
  · cases h
    exact isClearCut_of_plain (plain_takeWhile (by decide +kernel))
  split at h
  · exact (Number.staysOnLine_read _).isClearCut.1 l h
  split at h
  · rename_i hq
    exact Quoted.isClearCut_of_read (by simpa using hq) h
  split at h
  · rename_i hslash
    rw [eq_of_beq (Bool.and_eq_true_iff.mp hslash).1]
    exact (Regexp.staysOnLine_read _).isClearCut.1 l h
  split at h
  · rename_i hp
    cases h
    exact (Punctuator.staysOnLine_read? hp).isClearCut.1 l rfl
  · cases h

theorem isClearCut_of_read_error (h : Lexeme.read allowed text = .error bad) :
    IsClearCut (text.take bad.blamed) (text.drop bad.blamed) := by
  unfold Lexeme.read at h
  split at h
  · cases h
  split at h
  · cases h
  split at h
  · exact (Number.staysOnLine_read _).isClearCut.2 bad h
  split at h
  · exact Quoted.isClearCut_of_read_error h
  split at h
  · rename_i hslash
    rw [eq_of_beq (Bool.and_eq_true_iff.mp hslash).1]
    exact (Regexp.staysOnLine_read _).isClearCut.2 bad h
  split at h
  · cases h
  · cases h
    exact isClearCut_zero

end Lexeme

namespace Template

variable {previous : TokenKind}

/-- Behind a chunk its end comes next, and no token that ends a chunk has a carriage return. -/
theorem isClearCut_of_read {l : Lexeme} (h : read previous text = .ok l) :
    IsClearCut (text.take l.length) (text.drop l.length) := by
  unfold read at h
  split at h
  · cases h
  rename_i n lines hr
  have hn := chunkLength_of_readChunk hr
  split at h
  · rename_i hempty
    rw [hempty.1] at hn
    rcases AtChunkEnd.cases hn with ⟨rest, rfl⟩ | ⟨rest, rfl⟩
    · cases h
      nofun
    · cases h
      nofun
  · cases h
    intro _ hfeed
    rcases (atChunkEnd_drop hn).cases with ⟨rest, hrest⟩ | ⟨rest, hrest⟩ <;>
      rw [hrest] at hfeed <;> cases hfeed

theorem blamed_of_read_error {bad : LexicalFault} (h : read previous text = .error bad) :
    bad.blamed = 0 := by
  unfold read at h
  split at h
  · cases h
    rfl
  · split at h
    · split at h <;> cases h
    · cases h

end Template

namespace TokenStream

variable {s t : TokenStream}

theorem isClearCut_of_lexeme {l : Lexeme} (h : s.lexeme = .ok l) :
    IsClearCut (s.cursor.rest.take l.length) (s.cursor.rest.drop l.length) := by
  unfold lexeme at h
  split at h
  · cases h
    exact isClearCut_zero
  split at h
  · exact Template.isClearCut_of_read h
  · exact Lexeme.isClearCut_of_read h

theorem isClearCut_of_lexeme_error {bad : LexicalFault} (h : s.lexeme = .error bad) :
    IsClearCut (s.cursor.rest.take bad.blamed) (s.cursor.rest.drop bad.blamed) := by
  unfold lexeme at h
  split at h
  · cases h
  split at h
  · rw [Template.blamed_of_read_error h]
    exact isClearCut_zero
  · exact Lexeme.isClearCut_of_read_error h

/-- A stream whose places are clear: that of its cursor, and those of its token and of the one
before. -/
structure IsClear (text : List Char) (s : TokenStream) : Prop where
  exact : s.IsExact text
  cursor : s.cursor.place.IsClear text
  start : s.token.span.start.IsClear text
  stop : s.token.span.stop.IsClear text
  last : ∀ span ∈ s.last, span.start.IsClear text ∧ span.stop.IsClear text

/-- A step that ends with a clear stream, or with an error at a clear place. -/
def EndsClear (text : List Char) : EStateM.Result ParseError TokenStream Unit → Prop
  | .ok _ t => t.IsClear text
  | .error e _ => e.place.IsClear text

theorem isClear_ofText (text : List Char) : (ofText text).IsClear text where
  exact := isExact_ofText text
  cursor := Cursor.isClear_origin text
  start := Cursor.isClear_origin text
  stop := Cursor.isClear_origin text
  last := nofun

theorem isClear_recorded (h : s.IsClear text) : s.recorded.IsClear text where
  exact := isExact_recorded h.exact
  cursor := h.cursor
  start := h.start
  stop := h.stop
  last := by
    rintro _ ⟨⟩
    exact ⟨h.start, h.stop⟩

theorem blame_offset (s : TokenStream) (bad : LexicalFault) :
    (s.blame bad).offset = (s.cursor.skip bad.blamed).offset := by
  unfold blame
  split
  · rename_i hzero
    rw [hzero]
    rfl
  · rfl

theorem endsClear_readHere (hs : s.IsClear text) : EndsClear text (readHere s) := by
  have hend := endsExact_readHere hs.exact
  have forward : ∀ {p : Place} {n : Nat}, p.IsExact text → p.offset = (s.cursor.skip n).offset →
      IsClearCut (s.cursor.rest.take n) (s.cursor.rest.drop n) → p.IsClear text :=
    fun hp hoffset hcut => Cursor.isClear_of_cut hs.exact.cursor.split hs.cursor hp hoffset hcut
  unfold readHere at hend ⊢
  dsimp only at hend ⊢
  cases hl : s.markStart.lexeme with
  | ok l =>
    rw [hl] at hend
    have hoffset : (s.cursor.pass l.length l.lines).offset = (s.cursor.skip l.length).offset := by
      rw [Cursor.pass_offset, Cursor.skip_offset]
    have hstop := forward hend.cursor.place hoffset (isClearCut_of_lexeme (s := s.markStart) hl)
    exact ⟨hend, hstop, hs.cursor, hstop, hs.last⟩
  | error bad =>
    rw [hl] at hend
    exact forward hend.1 (blame_offset s.markStart bad)
      (isClearCut_of_lexeme_error (s := s.markStart) hl)

/-- Before a line feed there is something to skip. -/
theorem skipTrivia_lineFeed {rest : List Char} (hr : s.cursor.rest = '\n' :: rest) :
    skipTrivia 1 s = .ok () { s with cursor := (s.cursor.skip 1).newLine } := by
  unfold skipTrivia
  rw [hr]
  rfl

/-- Skipping does not stop before a line feed, neither at its end nor at a comment that is not
closed. -/
theorem clear_of_skipTrivia {fuel : Nat} (hs : s.IsExact text)
    (hfuel : s.cursor.rest.length ≤ fuel) :
    match skipTrivia fuel s with
    | .ok _ t => t.cursor.place.IsClear text
    | .error e _ => e.place.IsClear text := by
  induction fuel generalizing s with
  | zero =>
    refine Cursor.isClear_of_head hs.cursor ?_
    rw [List.length_eq_zero_iff.mp (Nat.le_zero.mp hfuel)]
    nofun
  | succ fuel ih =>
    rcases skipTrivia_cases s with hdone | hbad | ⟨m, hm, hrest⟩
    · rw [hdone]
      refine Cursor.isClear_of_head hs.cursor fun hhead => ?_
      obtain ⟨rest, hr⟩ := List.head?_eq_some_iff.mp hhead
      have hskip := skipTrivia_lineFeed hr
      rw [hdone] at hskip
      have hrest : s.cursor.rest = (s.cursor.skip 1).rest :=
        congrArg (fun s => s.cursor.rest) (EStateM.Result.ok.inj hskip).2
      have hlength := congrArg List.length hrest
      rw [Cursor.skip_rest, hr, List.drop_one, List.tail_cons, List.length_cons] at hlength
      exact absurd hlength (Nat.succ_ne_self _)
    · rw [hbad]
      refine Cursor.isClear_of_head hs.cursor fun hhead => ?_
      obtain ⟨rest, hr⟩ := List.head?_eq_some_iff.mp hhead
      have hskip := skipTrivia_lineFeed hr
      rw [hbad] at hskip
      cases hskip
    · rw [hrest]
      have hlt := length_lt_of_skip hm
      exact ih (isExact_skip hs hm) (by omega)

theorem endsClear_read (hs : s.IsClear text) : EndsClear text (read s) := by
  have hclear := clear_of_skipTrivia hs.exact (Nat.le_refl _)
  have hexact : EndsExact text (skipTrivia s.cursor.rest.length s) := endsExact_skipTrivia hs.exact
  unfold read
  split
  · exact endsClear_readHere hs
  · split
    · rename_i m hm
      rw [hm] at hclear hexact
      have hskips := skips_of_skipTrivia hm
      refine endsClear_readHere ⟨hexact, hclear, ?_, ?_, ?_⟩
      · rw [hskips.token_eq]
        exact hs.start
      · rw [hskips.token_eq]
        exact hs.stop
      · rw [hskips.last_eq]
        exact hs.last
    · rename_i e m hm
      rw [hm] at hclear
      exact hclear

theorem endsClear_advance (hs : s.IsClear text) : EndsClear text (advance s) :=
  endsClear_read (isClear_recorded hs)

end TokenStream

end EcmaTree
