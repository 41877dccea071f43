import EcmaTree.Proofs.Source.Slice
import EcmaTree.Token.Stream

/-!
# Blanks and comments

Before a token blanks, line breaks and comments are skipped one after the other. Each of them takes
characters, so fuel for every character is enough. A line break begins a line; blanks and line
comments stay on theirs; and a block comment counts the lines in its text, which a slash ends, so
that its last carriage return has no line feed outside of the comment.
-/

namespace EcmaTree

/-- The text of a comment between its delimiters. -/
def CommentKind.delimit : CommentKind → List Char → List Char
  | .line, content => ['/', '/'] ++ content
  | .block, content => ['/', '*'] ++ content ++ ['*', '/']

theorem CommentKind.delimit_ne_nil (kind : CommentKind) (content : List Char) :
    kind.delimit content ≠ [] := by
  cases kind <;> nofun

namespace TokenStream

variable {s t : TokenStream} {lines : LineCount} {done : Nat} {content text rest after : List Char}

/-- A block comment's text is followed by the closing delimiter. -/
theorem of_blockText? (h : blockText? rest = some text) : text ++ ['*', '/'] <+: rest := by
  induction rest generalizing text with
  | nil => cases h
  | cons c rest ih =>
    unfold blockText? at h
    split at h
    · rename_i hend
      cases h
      simp only [Bool.and_eq_true, beq_iff_eq] at hend
      obtain ⟨tail, rfl⟩ := List.head?_eq_some_iff.mp hend.2
      rw [hend.1]
      exact ⟨tail, rfl⟩
    · obtain ⟨inner, hinner, rfl⟩ := Option.map_eq_some_iff.mp h
      exact (List.cons_prefix_cons (a := c)).mpr ⟨rfl, ih hinner⟩

/-- The text of a block comment is counted in step with the line map, unless it ends between a
carriage return and its line feed. -/
theorem counts_blockLines (h : lines.Counts done content) (hdrop : content.drop done = text ++ after)
    (hafter : after.head? ≠ some '\n') :
    (blockLines done lines text).Counts (done + text.length) content := by
  have behind : ∀ {n : Nat} {written rest : List Char},
      content.drop n = written ++ rest → content.drop (n + written.length) = rest := by
    intro n written rest hdrop
    rw [← List.drop_drop, hdrop, List.drop_left]
  induction done, lines, text using blockLines.induct with
  | case1 done lines => exact h
  | case2 done lines rest ih =>
    have hpair : content.drop done = ['\r', '\n'] ++ (rest ++ after) := hdrop
    have hlength : done + ('\r' :: '\n' :: rest).length = done + 2 + rest.length := by
      rw [List.length_cons, List.length_cons]
      omega
    rw [blockLines, hlength]
    exact ih (LineCount.counts_newLine h hpair .carriageReturnLineFeed) (behind hpair)
  | case3 done lines c rest hpair lines' ih =>
    have hone : content.drop done = [c] ++ (rest ++ after) := hdrop
    have hlength : done + (c :: rest).length = done + 1 + rest.length := by
      rw [List.length_cons]
      omega
    have hcounts : lines'.Counts (done + 1) content := by
      unfold lines'
      split
      · rename_i hterminator
        refine LineCount.counts_newLine h hone (.single hterminator fun hc hfeed => ?_)
        cases rest with
        | nil => exact hafter hfeed
        | cons d rest => exact hpair rest hc (congrArg (· :: rest) (Option.some.inj hfeed))
      · rename_i hterminator
        refine LineCount.counts_skip h ?_
        rw [hone, List.singleton_append, List.take_succ_cons, List.take_zero]
        exact hasLineBreak_cons.mpr ⟨by simpa using hterminator, rfl⟩
    rw [blockLines, hlength]
    · exact ih hcounts (behind hone)
    · exact hpair

theorem blockLines_cons {c : Char} (hc : isLineTerminator c = false) :
    blockLines done lines (c :: rest) = blockLines (done + 1) lines rest := by
  rw [blockLines, hc]
  · rfl
  · rintro tail rfl
    cases hc

theorem blockLines_append (h : hasLineBreak text = false) :
    blockLines done lines (text ++ rest) = blockLines (done + text.length) lines rest := by
  induction text generalizing done with
  | nil => rfl
  | cons c text ih =>
    obtain ⟨hc, htext⟩ := hasLineBreak_cons.mp h
    rw [List.cons_append, blockLines_cons hc, List.length_cons, Nat.add_comm text.length 1,
      ← Nat.add_assoc]
    exact ih htext

theorem blockLines_terminator {ending : List Char} (h : IsTerminator rest ending) :
    blockLines done lines (ending ++ rest) =
      blockLines (done + ending.length) (lines.newLine (done + ending.length)) rest := by
  cases h with
  | carriageReturnLineFeed => rfl
  | single terminator whole =>
    rw [List.singleton_append, blockLines, if_pos terminator]
    · rfl
    · rintro tail hc rfl
      exact whole hc rfl

/-! ### One step -/

/-- What skipping blanks and comments leaves as it was, and where the cursor may have gone. -/
structure Skips (s t : TokenStream) : Prop where
  token_eq : t.token = s.token
  behind_eq : t.behind = s.behind
  last_eq : t.last = s.last
  behindLast_eq : t.behindLast = s.behindLast
  context_eq : t.context = s.context
  tokens_eq : t.tokens = s.tokens
  offset_le : s.cursor.offset ≤ t.cursor.offset
  length_le : t.cursor.rest.length ≤ s.cursor.rest.length

theorem Skips.refl (s : TokenStream) : Skips s s :=
  ⟨rfl, rfl, rfl, rfl, rfl, rfl, Nat.le_refl _, Nat.le_refl _⟩

theorem Skips.trans {s t u : TokenStream} (h : Skips s t) (h' : Skips t u) : Skips s u :=
  ⟨h'.token_eq.trans h.token_eq, h'.behind_eq.trans h.behind_eq, h'.last_eq.trans h.last_eq,
    h'.behindLast_eq.trans h.behindLast_eq, h'.context_eq.trans h.context_eq,
    h'.tokens_eq.trans h.tokens_eq, Nat.le_trans h.offset_le h'.offset_le,
    Nat.le_trans h'.length_le h.length_le⟩

/-- One blank, one line break or one comment is skipped. -/
inductive Skip (s : TokenStream) : TokenStream → Prop
  | blank {c : Char} {rest : List Char} (rest_eq : s.cursor.rest = c :: rest)
    (blank : isBlank c = true) (plain : isLineTerminator c = false) :
    Skip s { s with cursor := s.cursor.skip 1 }
  | newLine {ending rest : List Char} (rest_eq : s.cursor.rest = ending ++ rest)
    (terminator : IsTerminator rest ending) :
    Skip s { s with cursor := (s.cursor.skip ending.length).newLine }
  | comment {kind : CommentKind} {text : List Char} {n : Nat} {lines : LineCount}
    (written : s.cursor.rest.take n = kind.delimit text) (counts : lines.Counts n s.cursor.rest) :
    Skip s (s.addComment kind text n lines)

/-- A line comment ends before the next line terminator, so no line begins in it. -/
theorem skip_lineComment {c : Char} (hr : s.cursor.rest = c :: rest)
    (hline : (c == '/' && rest.head? == some '/') = true) :
    Skip s (s.addComment .line (rest.tail.takeWhile fun c => !isLineTerminator c)
      ((rest.tail.takeWhile fun c => !isLineTerminator c).length + 2) .zero) := by
  simp only [Bool.and_eq_true, beq_iff_eq] at hline
  obtain ⟨tail, rfl⟩ := List.head?_eq_some_iff.mp hline.2
  obtain rfl := hline.1
  rw [List.tail_cons]
  have hwritten : s.cursor.rest.take ((tail.takeWhile fun c => !isLineTerminator c).length + 2) =
      CommentKind.line.delimit (tail.takeWhile fun c => !isLineTerminator c) := by
    rw [hr, List.take_succ_cons, List.take_succ_cons, take_length_takeWhile]
    rfl
  refine .comment hwritten (LineCount.counts_plain ?_)
  rw [hr]
  exact plain_take_cons rfl (plain_take_cons rfl (plain_takeWhile (by decide)))

/-- The lines of a block comment are counted in its text. -/
theorem skip_blockComment {c : Char} (hr : s.cursor.rest = c :: rest)
    (hblock : (c == '/' && rest.head? == some '*') = true)
    (htext : blockText? rest.tail = some text) :
    Skip s (s.addComment .block text (text.length + 4) (blockLines 2 .zero text)) := by
  simp only [Bool.and_eq_true, beq_iff_eq] at hblock
  obtain ⟨tail, rfl⟩ := List.head?_eq_some_iff.mp hblock.2
  obtain rfl := hblock.1
  obtain ⟨after, hafter⟩ := of_blockText? htext
  have hcontent : s.cursor.rest = '/' :: '*' :: (text ++ ['*', '/'] ++ after) := by
    rw [hr, hafter, List.tail_cons]
  have hopening : LineCount.zero.Counts 2 s.cursor.rest := by
    refine LineCount.counts_plain ?_
    rw [hcontent]
    rfl
  have hbody : s.cursor.rest.drop 2 = text ++ ('*' :: '/' :: after) := by
    rw [hcontent, List.append_assoc]
    rfl
  refine .comment ?_ ?_
  · rw [hcontent, List.take_succ_cons, List.take_succ_cons, List.take_left' (by simp)]
    rfl
  · rw [show text.length + 4 = 2 + text.length + 2 by omega]
    refine LineCount.counts_skip (counts_blockLines hopening hbody (by nofun)) ?_
    rw [← List.drop_drop, hbody, List.drop_left]
    rfl

theorem skips_of_skip (h : Skip s t) : Skips s t := by
  have here : ∀ n, Skips s { s with cursor := s.cursor.skip n } := fun n =>
    ⟨rfl, rfl, rfl, rfl, rfl, rfl, Cursor.offset_le_pass n .zero s.cursor,
      Cursor.length_pass_le n .zero s.cursor⟩
  cases h with
  | blank => exact here 1
  | @newLine ending =>
    have hskips := here ending.length
    exact { hskips with }
  | @comment kind text n lines =>
    exact ⟨rfl, rfl, rfl, rfl, rfl, rfl, Cursor.offset_le_pass n lines s.cursor,
      Cursor.length_pass_le n lines s.cursor⟩

/-- There is something to skip, and the cursor comes behind it. -/
theorem length_lt_of_skip (h : Skip s t) : t.cursor.rest.length < s.cursor.rest.length := by
  have ahead : ∀ {n : Nat} (lines : LineCount), s.cursor.rest.take n ≠ [] →
      (s.cursor.pass n lines).rest.length < s.cursor.rest.length := by
    intro n lines hne
    rw [ne_eq, List.take_eq_nil_iff, not_or] at hne
    exact (Cursor.lt_pass lines (Nat.pos_of_ne_zero hne.1) hne.2).2
  cases h with
  | blank rest_eq => exact ahead .zero (by rw [rest_eq]; nofun)
  | newLine rest_eq terminator =>
    exact ahead .zero (by rw [rest_eq, List.take_left]; exact terminator.ne_nil)
  | comment written => exact ahead _ (by rw [written]; exact CommentKind.delimit_ne_nil _ _)

/-- Skipping is over, or a comment has no end, or there is something to skip. -/
theorem skipTrivia_cases (s : TokenStream) :
    (∀ fuel, skipTrivia fuel s = .ok () s) ∨
      (∀ fuel, skipTrivia (fuel + 1) s = .error ⟨.unterminatedComment, s.cursor.place⟩ s) ∨
      ∃ t, Skip s t ∧ ∀ fuel, skipTrivia (fuel + 1) s = skipTrivia fuel t := by
  cases hr : s.cursor.rest with
  | nil =>
    left
    intro fuel
    cases fuel <;> simp [skipTrivia, hr]
  | cons c rest =>
    by_cases hreturn : (c == '\r') = true
    · rw [eq_of_beq hreturn] at hr
      by_cases hfeed : (rest.head? == some '\n') = true
      · obtain ⟨tail, rfl⟩ := List.head?_eq_some_iff.mp (eq_of_beq hfeed)
        have hskip : Skip s { s with cursor := (s.cursor.skip 2).newLine } :=
          .newLine hr .carriageReturnLineFeed
        refine .inr (.inr ⟨_, hskip, fun fuel => ?_⟩)
        simp [skipTrivia, hr]
      · have hsingle : IsTerminator rest ['\r'] :=
          .single (by decide) fun _ hhead => hfeed (beq_iff_eq.mpr hhead)
        have hskip : Skip s { s with cursor := (s.cursor.skip 1).newLine } := .newLine hr hsingle
        refine .inr (.inr ⟨_, hskip, fun fuel => ?_⟩)
        simp [skipTrivia, hr, hfeed]
    by_cases hterminator : isLineTerminator c = true
    · have hsingle : IsTerminator rest [c] :=
        .single hterminator fun hc => absurd (beq_iff_eq.mpr hc) hreturn
      have hskip : Skip s { s with cursor := (s.cursor.skip 1).newLine } := .newLine hr hsingle
      refine .inr (.inr ⟨_, hskip, fun fuel => ?_⟩)
      simp [skipTrivia, hr, hreturn, hterminator]
    by_cases hline : (c == '/' && rest.head? == some '/') = true
    · have hskip := skip_lineComment hr hline
      refine .inr (.inr ⟨_, hskip, fun fuel => ?_⟩)
      simp only [skipTrivia, hr, hreturn, hterminator, hline, if_true, if_false, Bool.false_eq_true]
    by_cases hblock : (c == '/' && rest.head? == some '*') = true
    · cases ht : blockText? rest.tail with
      | none =>
        right
        left
        intro fuel
        simp only [skipTrivia, hr, hreturn, hterminator, hline, hblock, ht, if_true, if_false,
          Bool.false_eq_true]
      | some text =>
        refine .inr (.inr ⟨_, skip_blockComment hr hblock ht, fun fuel => ?_⟩)
        simp only [skipTrivia, hr, hreturn, hterminator, hline, hblock, ht, if_true, if_false,
          Bool.false_eq_true]
    by_cases hblank : isBlank c = true
    · refine .inr (.inr ⟨_, .blank hr hblank (by simpa using hterminator), fun fuel => ?_⟩)
      simp only [skipTrivia, hr, hreturn, hterminator, hline, hblock, hblank, if_true, if_false,
        Bool.false_eq_true]
    · left
      intro fuel
      cases fuel with
      | zero => rfl
      | succ fuel =>
        simp only [skipTrivia, hr, hreturn, hterminator, hline, hblock, hblank, if_false,
          Bool.false_eq_true]

/-! ### All steps -/

theorem skips_of_skipTrivia {fuel : Nat} {u : Unit} (h : skipTrivia fuel s = .ok u t) :
    Skips s t := by
  induction fuel generalizing s with
  | zero =>
    cases h
    exact .refl _
  | succ fuel ih =>
    rcases skipTrivia_cases s with hdone | hbad | ⟨m, hm, hrest⟩
    · rw [hdone] at h
      cases h
      exact .refl _
    · rw [hbad] at h
      cases h
    · rw [hrest] at h
      exact (skips_of_skip hm).trans (ih h)

/-- Up to a comment that has no end blanks and comments are skipped. -/
theorem skips_of_skipTrivia_error {fuel : Nat} {e : ParseError} (h : skipTrivia fuel s = .error e t) :
    Skips s t := by
  induction fuel generalizing s with
  | zero => cases h
  | succ fuel ih =>
    rcases skipTrivia_cases s with hdone | hbad | ⟨m, hm, hrest⟩
    · rw [hdone] at h
      cases h
    · rw [hbad] at h
      cases h
      exact .refl _
    · rw [hrest] at h
      exact (skips_of_skip hm).trans (ih h)

/-- One unit of fuel for every character is enough to skip all blanks and comments. -/
theorem skipTrivia_eq {fuel fuel' : Nat} (h : s.cursor.rest.length ≤ fuel)
    (h' : s.cursor.rest.length ≤ fuel') : skipTrivia fuel s = skipTrivia fuel' s := by
  induction fuel generalizing fuel' s with
  | zero =>
    have hr : s.cursor.rest = [] := List.length_eq_zero_iff.mp (Nat.le_zero.mp h)
    cases fuel' <;> simp [skipTrivia, hr]
  | succ fuel ih =>
    obtain _ | fuel' := fuel'
    · have hr : s.cursor.rest = [] := List.length_eq_zero_iff.mp (Nat.le_zero.mp h')
      simp [skipTrivia, hr]
    · rcases skipTrivia_cases s with hdone | hbad | ⟨t, hskip, hrest⟩
      · rw [hdone, hdone]
      · rw [hbad, hbad]
      · have hlt := length_lt_of_skip hskip
        rw [hrest, hrest]
        exact ih (by omega) (by omega)

end TokenStream

end EcmaTree
