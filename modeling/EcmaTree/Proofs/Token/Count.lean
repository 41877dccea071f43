import EcmaTree.Proofs.Token.Chunk
import EcmaTree.Proofs.Token.Cooked

/-!
# Lines in a token

Words, numbers, regular expressions and operators stay on one line, and their readers count none.
The reader of a string literal counts at the line terminators that are escaped, and the reader of a
chunk at all of them. Either count agrees with the line map at every character that the reader
comes to, so it agrees also where the reader breaks off.
-/

namespace EcmaTree

variable {text rest content : List Char} {lines : LineCount} {done : Nat}

/-- What ends on the line on which it began: a token, or where its reader broke off and what it
blames. -/
def StaysOnLine (content : List Char) : Except LexicalFault Lexeme → Prop
  | .ok l => l.lines = .zero ∧ hasLineBreak (content.take l.length) = false
  | .error bad => bad.lines = .zero ∧ hasLineBreak (content.take bad.reached) = false ∧
      hasLineBreak (content.take bad.blamed) = false

/-- The lines of a fault are counted as in the line map, and the place to blame is the start of the
token or lies on the line that has been come to. -/
def LexicalFault.CountsLines (content : List Char) (bad : LexicalFault) : Prop :=
  bad.lines.Counts bad.reached content ∧ (bad.blamed = 0 ∨ bad.lines.Counts bad.blamed content)

/-- The lines in a token are counted as in the line map, also where its reader breaks off. -/
def CountsLines (content : List Char) : Except LexicalFault Lexeme → Prop
  | .ok l => l.lines.Counts l.length content
  | .error bad => bad.CountsLines content

theorem countsLines_of_staysOnLine {result : Except LexicalFault Lexeme}
    (h : StaysOnLine content result) : CountsLines content result := by
  cases result with
  | ok l =>
    obtain ⟨hlines, hplain⟩ := h
    exact (hlines ▸ LineCount.counts_plain hplain : l.lines.Counts _ _)
  | error bad =>
    obtain ⟨hlines, hreached, hblamed⟩ := h
    have hcounts : ∀ {n}, hasLineBreak (content.take n) = false → bad.lines.Counts n content :=
      fun hplain => hlines ▸ LineCount.counts_plain hplain
    exact ⟨hcounts hreached, .inr (hcounts hblamed)⟩

/-! ### Tokens on one line -/

namespace Number

theorem staysOnLine_notBeforeName {length : Nat} {x : Float}
    (h : hasLineBreak (text.take length) = false) :
    StaysOnLine text (notBeforeName text length x) := by
  unfold notBeforeName
  split
  · exact ⟨rfl, h, h⟩
  · exact ⟨rfl, h⟩

theorem staysOnLine_readInBase {base : Nat} {zero c : Char} (hz : isLineTerminator zero = false)
    (hc : isLineTerminator c = false) :
    StaysOnLine (zero :: c :: rest) (readInBase base (zero :: c :: rest)) := by
  have hdigit : lineTerminators.any (isDigit base) = false := by
    refine List.any_eq_false.mpr fun c hc => ?_
    have hvalue : digitValue? base c = none := by
      simp only [lineTerminators, List.mem_cons, List.not_mem_nil, or_false] at hc
      rcases hc with rfl | rfl | rfl | rfl <;> exact if_neg (Nat.lt_irrefl base)
    rw [isDigit, hvalue]
    exact Bool.false_ne_true
  have hletters : ∀ {n}, hasLineBreak (rest.take n) = false →
      hasLineBreak ((zero :: c :: rest).take (n + 2)) = false :=
    fun h => plain_take_cons hz (plain_take_cons hc h)
  unfold readInBase
  dsimp only
  split
  · exact ⟨rfl, hletters rfl, rfl⟩
  · exact staysOnLine_notBeforeName (hletters (plain_takeWhile hdigit))

theorem plain_readExponent (text : List Char) :
    match readExponent text with
    | .ok (_, n) => hasLineBreak (text.take n) = false
    | .error n => hasLineBreak (text.take n) = false := by
  cases text with
  | nil => rfl
  | cons e rest =>
    by_cases he : (e == 'e' || e == 'E') = true
    · have hletter : isLineTerminator e = false := by
        rcases Bool.or_eq_true_iff.mp he with he | he <;> rw [eq_of_beq he] <;> rfl
      have hsign : hasLineBreak (rest.take
          ((rest.take 1).filter fun c => c == '+' || c == '-').length) = false :=
        plain_filter (by decide)
      simp only [readExponent, he, if_true]
      split
      · rename_i h
        split at h
        · cases h
        · cases h
          exact plain_take_cons hletter (plain_take_add hsign (plain_takeWhile (by decide)))
      · rename_i h
        split at h
        · cases h
          exact plain_take_cons hletter hsign
        · cases h
    · simp only [readExponent, he, if_false, Bool.false_eq_true]
      rfl

theorem staysOnLine_readDecimal (text : List Char) : StaysOnLine text (readDecimal text) := by
  unfold readDecimal
  dsimp only
  generalize hwhole : (text.takeWhile isDecimalDigit).length = whole
  generalize hpoint : ((text.drop whole).take 1).filter (· == '.') = point
  generalize hfraction : (if point.isEmpty then [] else
    ((text.drop whole).drop 1).takeWhile isDecimalDigit) = fraction
  have hlength : hasLineBreak (text.take (whole + point.length + fraction.length)) = false := by
    refine plain_take_add (plain_take_add ?_ ?_) ?_
    · exact hwhole ▸ plain_takeWhile (by decide)
    · exact hpoint ▸ plain_filter (by decide)
    · rw [← hfraction]
      split
      · rfl
      · -- Behind the point, which is one character, come the digits of the fraction.
        rename_i hne
        have hone : point.length = 1 := by
          refine Nat.le_antisymm ?_ (List.length_pos_iff.mpr (by simpa using hne))
          rw [← hpoint]
          exact Nat.le_trans (List.length_filter_le _ _) (List.length_take_le 1 _)
        rw [hone, ← List.drop_drop]
        exact plain_takeWhile (by decide)
  have hexponent := plain_readExponent (text.drop (whole + point.length + fraction.length))
  split
  · rename_i n hn
    rw [hn] at hexponent
    exact ⟨rfl, plain_take_add hlength hexponent, rfl⟩
  · rename_i exponent n hn
    rw [hn] at hexponent
    exact staysOnLine_notBeforeName (plain_take_add hlength hexponent)

/-- A number is decimal, or its base is told by the letter behind a zero. -/
theorem read_cases (text : List Char) : read text = readDecimal text ∨
    ∃ base c rest, text = '0' :: c :: rest ∧ isLineTerminator c = false ∧
      read text = readInBase base text := by
  have hletter : ∀ {c x y : Char}, isLineTerminator x = false → isLineTerminator y = false →
      (c == x || c == y) = true → isLineTerminator c = false := by
    intro c x y hx hy hc
    rcases Bool.or_eq_true_iff.mp hc with hc | hc <;> rwa [eq_of_beq hc]
  unfold read
  split
  · split
    · rename_i hc
      exact .inr ⟨16, _, _, rfl, hletter rfl rfl hc, rfl⟩
    split
    · rename_i hc
      exact .inr ⟨8, _, _, rfl, hletter rfl rfl hc, rfl⟩
    split
    · rename_i hc
      exact .inr ⟨2, _, _, rfl, hletter rfl rfl hc, rfl⟩
    · exact .inl rfl
  · exact .inl rfl

theorem staysOnLine_read (text : List Char) : StaysOnLine text (read text) := by
  rcases read_cases text with hread | ⟨base, c, rest, rfl, hc, hread⟩
  · rw [hread]
    exact staysOnLine_readDecimal text
  · rw [hread]
    exact staysOnLine_readInBase rfl hc

end Number

namespace Regexp

/-- The pattern and the slash behind it stay on one line, or what is read of them. -/
def IsPlain (text : List Char) : Except Nat Nat → Prop
  | .ok n => hasLineBreak (text.take (n + 1)) = false
  | .error n => hasLineBreak (text.take n) = false

theorem isPlain_patternLength (inClass escaped : Bool) (text : List Char) :
    IsPlain text (patternLength inClass escaped text) := by
  induction text generalizing inClass escaped with
  | nil => rfl
  | cons c rest ih =>
    unfold patternLength
    dsimp only
    split
    · rfl
    rename_i hterminator
    have hc : isLineTerminator c = false := by simpa using hterminator
    -- The pattern goes on behind the character.
    have next : ∀ inClass escaped, IsPlain (c :: rest)
        (match patternLength inClass escaped rest with
          | .ok n => .ok (n + 1)
          | .error n => .error (n + 1)) := by
      intro inClass escaped
      have hrest := ih inClass escaped
      cases h : patternLength inClass escaped rest with
      | ok n =>
        rw [h] at hrest
        exact plain_take_cons hc hrest
      | error n =>
        rw [h] at hrest
        exact plain_take_cons hc hrest
    split
    · exact next _ _
    split
    · exact plain_take_cons hc rfl
    split
    · exact next _ _
    split
    · exact next _ _
    · exact next _ _

theorem staysOnLine_read (text : List Char) : StaysOnLine ('/' :: text) (read text) := by
  have hpattern := isPlain_patternLength false false text
  unfold read
  split
  · rename_i n hn
    rw [hn] at hpattern
    exact ⟨rfl, plain_take_cons rfl hpattern, rfl⟩
  · rename_i n hn
    rw [hn] at hpattern
    dsimp only
    have hwritten : hasLineBreak (('/' :: text).take
        (n + ((text.drop (n + 1)).takeWhile isIdentifierPart).length + 2)) = false := by
      have hflags := plain_take_add hpattern (plain_takeWhile (p := isIdentifierPart) (by decide +kernel))
      rw [Nat.add_right_comm n 1] at hflags
      exact plain_take_cons rfl hflags
    split
    · exact ⟨rfl, hwritten⟩
    · exact ⟨rfl, hwritten, rfl⟩

end Regexp

theorem Punctuator.staysOnLine_read? {l : Lexeme} (h : read? text = some l) :
    StaysOnLine text (.ok l) := by
  have hspelling : ∀ p ∈ table, hasLineBreak p.spelling.toList = false := by decide
  obtain ⟨p, hp, rfl⟩ := Option.map_eq_some_iff.mp h
  have hfound := List.find?_some hp
  have hprefix : p.spelling.toList <+: text := List.isPrefixOf_iff_prefix.mp hfound
  refine ⟨rfl, ?_⟩
  change hasLineBreak (text.take p.spelling.toList.length) = false
  rw [← List.prefix_iff_eq_take.mp hprefix]
  exact hspelling p (List.mem_of_find?_eq_some hp)

/-! ### String literals -/

namespace Quoted

theorem plain_of_readEscape_error {bad : BadEscape} (h : readEscape text = .error bad) :
    hasLineBreak (text.take bad.reached) = false := by
  have fixed : ∀ {width : Nat} {letter : Char} {text : List Char},
      isLineTerminator letter = false → fixedEscape width text = .error bad →
      hasLineBreak ((letter :: text).take bad.reached) = false := by
    intro width letter text hletter h
    unfold fixedEscape at h
    split at h
    · cases h
    · cases h
      exact plain_take_cons hletter rfl
  unfold readEscape at h
  split at h
  · cases h
    rfl
  iterate 7
    · cases h
  · exact fixed rfl h
  · rename_i rest
    unfold bracedEscape at h
    dsimp only at h
    have hopening : ∀ {n}, hasLineBreak (rest.take n) = false →
        hasLineBreak (('u' :: '\x7b' :: rest).take (n + 2)) = false :=
      fun h => plain_take_cons rfl (plain_take_cons rfl h)
    split at h
    · cases h
      exact hopening (plain_takeWhile (by decide))
    · split at h
      · cases h
      · cases h
        exact hopening (n := 0) rfl
  · exact fixed rfl h
  · cases h
  · split at h <;> cases h

/-- Behind an escape its characters are passed over, and a line begins if one ends in it. -/
theorem counts_escape {e : Escape} (hdrop : content.drop done = rest)
    (hcounts : lines.Counts done content) (h : readEscape rest = .ok e) :
    (if e.newLine then lines.newLine (done + e.length) else lines).Counts (done + e.length)
      content := by
  obtain ⟨written, behind, rfl, hlength, hnewLine, hescape⟩ := exists_of_readEscape h
  rw [hlength, hnewLine]
  rcases hescape.lines with ⟨hmeant, hterminator⟩ | ⟨hmeant, hplain⟩
  · rw [hmeant]
    exact LineCount.counts_newLine hcounts hdrop hterminator
  · rw [if_neg (by simpa using hmeant)]
    refine LineCount.counts_skip hcounts ?_
    rwa [hdrop, List.take_left]

/-- The lines between the quotes are counted as in the line map, also where reading breaks off. -/
def BodyCounts (content : List Char) : Except LexicalFault Body → Prop
  | .ok b => b.lines.Counts b.length content
  | .error bad => bad.CountsLines content

/-- Reading goes on behind `owed` characters of an escape, up to which the lines are counted. -/
theorem counts_readBody {quote : Char} {owed : Nat} (hquote : isLineTerminator quote = false)
    (hdrop : content.drop done = text) (hcounts : lines.Counts (done + owed) content) :
    BodyCounts content (readBody quote done owed lines text) := by
  induction text generalizing done owed lines with
  | nil =>
    have hend : content.length ≤ done := List.drop_eq_nil_iff.mp hdrop
    exact ⟨LineCount.counts_of_length_le hcounts (by omega) hend, .inl rfl⟩
  | cons c rest ih =>
    have hbehind : content.drop (done + 1) = rest := by
      rw [← List.drop_drop, hdrop, List.drop_one, List.tail_cons]
    -- What is read behind the character only grows by what the character stands for.
    have step : ∀ {owed lines cs}, lines.Counts (done + 1 + owed) content →
        BodyCounts content ((readBody quote (done + 1) owed lines rest).map (Body.prepend cs)) := by
      intro owed lines cs hcounts
      have hrest := ih hbehind hcounts
      cases h : readBody quote (done + 1) owed lines rest with
      | ok b =>
        rw [h] at hrest
        exact hrest
      | error bad =>
        rw [h] at hrest
        exact hrest
    -- Behind a character that ends no line the count is still right.
    have onward : isLineTerminator c = false → lines.Counts done content →
        lines.Counts (done + 1) content := by
      intro hc hcounts
      refine LineCount.counts_skip hcounts ?_
      rw [hdrop]
      exact plain_take_cons hc rfl
    unfold readBody
    split
    · refine ih hbehind ?_
      rw [Nat.add_right_comm]
      exact hcounts
    split
    · rename_i hc
      exact onward (eq_of_beq hc ▸ hquote) hcounts
    split
    · rename_i hslash
      have hbackslash := onward (by rw [eq_of_beq hslash]; rfl) hcounts
      split
      · rename_i e he
        exact step (counts_escape hbehind hbackslash he)
      · rename_i bad hbad
        refine ⟨LineCount.counts_skip hbackslash ?_, ?_⟩
        · rw [hbehind]
          exact plain_of_readEscape_error hbad
        · dsimp only
          split
          · exact .inr hcounts
          · exact .inl rfl
    split
    · exact ⟨hcounts, .inl rfl⟩
    · rename_i hterminator
      exact step (onward (by simpa using hterminator) hcounts)

theorem countsLines_read {quote : Char} (hquote : isLineTerminator quote = false)
    (text : List Char) : CountsLines (quote :: text) (read quote text) := by
  have hopening : LineCount.zero.Counts 1 (quote :: text) :=
    LineCount.counts_plain (plain_take_cons hquote rfl)
  have hbody : BodyCounts (quote :: text) (readBody quote 1 0 .zero text) :=
    counts_readBody hquote rfl hopening
  unfold read
  cases h : readBody quote 1 0 .zero text with
  | ok b =>
    rw [h] at hbody
    exact hbody
  | error bad =>
    rw [h] at hbody
    exact hbody

end Quoted

/-! ### Chunks of a template -/

namespace Template

/-- Behind a character of a chunk a line begins, if the character ends one. -/
theorem counts_track {c : Char} (hdrop : content.drop done = c :: rest)
    (hcounts : lines.Counts done content) :
    (track (done + 1) lines c rest).2.Counts (track (done + 1) lines c rest).1 content ∧
      done + 1 ≤ (track (done + 1) lines c rest).1 := by
  unfold track
  split
  · rename_i hterminator
    dsimp only
    split
    · rename_i hpair
      obtain ⟨hc, hfeed⟩ := Bool.and_eq_true_iff.mp hpair
      obtain ⟨tail, rfl⟩ := List.head?_eq_some_iff.mp (eq_of_beq hfeed)
      have hpair : content.drop done = ['\r', '\n'] ++ tail := eq_of_beq hc ▸ hdrop
      exact ⟨LineCount.counts_newLine hcounts hpair .carriageReturnLineFeed, Nat.le_succ _⟩
    · rename_i hpair
      have hsingle : IsTerminator rest [c] := by
        refine .single hterminator fun hc hfeed => hpair ?_
        rw [hc, hfeed]
        rfl
      exact ⟨LineCount.counts_newLine hcounts hdrop hsingle, Nat.le_refl _⟩
  · rename_i hterminator
    refine ⟨LineCount.counts_skip hcounts ?_, Nat.le_refl _⟩
    rw [hdrop]
    exact plain_take_cons (by simpa using hterminator) rfl

theorem counts_passOver {c : Char} (hdrop : content.drop done = c :: rest)
    (hcounts : lines.Counts done content) :
    (passOver done lines c rest).2.Counts (passOver done lines c rest).1 content ∧
      done + 1 ≤ (passOver done lines c rest).1 := by
  unfold passOver
  split
  · rename_i hslash
    have hbackslash : lines.Counts (done + 1) content := by
      refine LineCount.counts_skip hcounts ?_
      rw [hdrop, eq_of_beq hslash]
      rfl
    split
    · exact ⟨hbackslash, Nat.le_refl _⟩
    · rename_i escaped rest
      have hbehind : content.drop (done + 1) = escaped :: rest := by
        rw [← List.drop_drop, hdrop, List.drop_one, List.tail_cons]
      obtain ⟨htrack, hle⟩ := counts_track hbehind hbackslash
      exact ⟨htrack, Nat.le_trans (Nat.le_succ _) hle⟩
  · exact counts_track hdrop hcounts

/-- The lines up to the end of the chunk are counted as in the line map, or those up to the end of
the text. -/
def ChunkCounts (content : List Char) : Except LineCount (Nat × LineCount) → Prop
  | .ok (n, lines) => lines.Counts n content
  | .error lines => lines.Counts content.length content

theorem counts_readChunk {owed : Nat} (hdrop : content.drop done = text)
    (hcounts : lines.Counts (done + owed) content) :
    ChunkCounts content (readChunk done owed lines text) := by
  induction text generalizing done owed lines with
  | nil =>
    have hend : content.length ≤ done := List.drop_eq_nil_iff.mp hdrop
    exact LineCount.counts_of_length_le hcounts (by omega) (Nat.le_refl _)
  | cons c rest ih =>
    have hbehind : content.drop (done + 1) = rest := by
      rw [← List.drop_drop, hdrop, List.drop_one, List.tail_cons]
    unfold readChunk
    split
    · refine ih hbehind ?_
      rw [Nat.add_right_comm]
      exact hcounts
    by_cases hend : (c == '\x60' || (c == '$' && rest.head? == some '\x7b')) = true
    · rw [if_pos hend]
      exact hcounts
    · rw [if_neg hend]
      obtain ⟨hpassed, hle⟩ := counts_passOver hdrop hcounts
      refine ih hbehind ?_
      rwa [Nat.add_sub_cancel' hle]

/-- The tokens that end a chunk have no line terminator. -/
theorem countsLines_read (previous : TokenKind) (text : List Char) :
    CountsLines text (read previous text) := by
  have hchunk : ChunkCounts text (readChunk 0 0 .zero text) :=
    counts_readChunk rfl LineCount.counts_zero
  unfold read
  split
  · rename_i hr
    rw [hr] at hchunk
    exact ⟨hchunk, .inl rfl⟩
  · rename_i n lines hr
    rw [hr] at hchunk
    split
    · rename_i hempty
      rw [hempty.1] at hr
      have hend : AtChunkEnd text := chunkLength_of_readChunk hr
      rcases hend.cases with ⟨rest, rfl⟩ | ⟨rest, rfl⟩
      · exact LineCount.counts_plain (n := 1) rfl
      · exact LineCount.counts_plain (n := 2) rfl
    · exact hchunk

end Template

/-! ### The token at the cursor -/

theorem Lexeme.countsLines_read (allowed : Bool) (text : List Char) :
    CountsLines text (Lexeme.read allowed text) := by
  unfold Lexeme.read
  split
  · exact LineCount.counts_zero
  rename_i c rest
  split
  · exact LineCount.counts_plain (plain_takeWhile (by decide +kernel))
  split
  · exact countsLines_of_staysOnLine (Number.staysOnLine_read _)
  split
  · rename_i hquote
    refine Quoted.countsLines_read ?_ rest
    rcases Bool.or_eq_true_iff.mp hquote with hquote | hquote <;> rw [eq_of_beq hquote] <;> rfl
  split
  · rename_i hslash
    rw [eq_of_beq (Bool.and_eq_true_iff.mp hslash).1]
    exact countsLines_of_staysOnLine (Regexp.staysOnLine_read rest)
  split
  · rename_i hp
    exact countsLines_of_staysOnLine (Punctuator.staysOnLine_read? hp)
  · exact ⟨LineCount.counts_zero, .inl rfl⟩

theorem TokenStream.countsLines_lexeme (s : TokenStream) : CountsLines s.cursor.rest s.lexeme := by
  unfold lexeme
  split
  · exact LineCount.counts_zero
  split
  · exact Template.countsLines_read _ _
  · exact Lexeme.countsLines_read _ _

end EcmaTree
