import EcmaTree.Proofs.Source.Slice
import EcmaTree.Proofs.Token.Trail

/-!
# Tokens and comments tile the text

Reading a text loses nothing. The tokens and comments that a stream has recorded lie one after
the other, and what they leave out is blank. A comment or a token is pushed when the cursor is
behind everything recorded before, so the two records stay in order when they are merged by
where their spans start. A chunk of a template may be empty, while a comment has its
delimiters: therefore a comment and a token never start at the same offset.
-/

namespace EcmaTree

variable {text : List Char}

/-- The text from `start` to `stop` has only characters that are skipped between tokens. -/
def BlankBetween (text : List Char) (start stop : Nat) : Prop :=
  ∃ gap, slice? text start stop = some gap ∧ gap.all isBlank = true

theorem BlankBetween.trans {a b c : Nat} (h : BlankBetween text a b) (h' : BlankBetween text b c) :
    BlankBetween text a c := by
  obtain ⟨xs, hxs, hblank⟩ := h
  obtain ⟨ys, hys, hblank'⟩ := h'
  refine ⟨xs ++ ys, slice?_trans hxs hys, ?_⟩
  rw [List.all_append, hblank, hblank', Bool.and_self]

theorem BlankBetween.le {a b : Nat} (h : BlankBetween text a b) : a ≤ b := by
  obtain ⟨gap, hgap, -⟩ := h
  exact le_of_slice? hgap

/-- The spans lie one after the other from `start` to `stop`, and only blanks stand before,
between and behind them. -/
def Tiles (text : List Char) (start stop : Nat) : List Span → Prop
  | [] => BlankBetween text start stop
  | span :: spans =>
    BlankBetween text start span.start.offset ∧ span.start.offset ≤ span.stop.offset ∧
      Tiles text span.stop.offset stop spans

theorem tiles_concat {start stop : Nat} {spans : List Span} {span : Span}
    (h : Tiles text start span.start.offset spans)
    (hle : span.start.offset ≤ span.stop.offset)
    (hblank : BlankBetween text span.stop.offset stop) :
    Tiles text start stop (spans ++ [span]) := by
  induction spans generalizing start with
  | nil => exact ⟨h, hle, hblank⟩
  | cons first spans ih =>
    obtain ⟨hgap, hfirst, hrest⟩ := h
    exact ⟨hgap, hfirst, ih hrest⟩

theorem tiles_blank {start middle stop : Nat} {spans : List Span}
    (h : Tiles text start middle spans) (hblank : BlankBetween text middle stop) :
    Tiles text start stop spans := by
  induction spans generalizing start with
  | nil => exact BlankBetween.trans h hblank
  | cons span spans ih =>
    obtain ⟨hgap, hspan, hrest⟩ := h
    exact ⟨hgap, hspan, ih hrest⟩

theorem bounds_of_mem_tiles {start stop : Nat} {spans : List Span} {span : Span}
    (h : Tiles text start stop spans) (hmem : span ∈ spans) :
    start ≤ span.start.offset ∧ span.stop.offset ≤ stop := by
  have le_stop : ∀ {start : Nat} {spans : List Span}, Tiles text start stop spans →
      start ≤ stop := by
    intro start spans h
    induction spans generalizing start with
    | nil => exact h.le
    | cons first spans ih =>
      obtain ⟨hgap, hfirst, hrest⟩ := h
      exact Nat.le_trans hgap.le (Nat.le_trans hfirst (ih hrest))
  induction spans generalizing start with
  | nil => cases hmem
  | cons first spans ih =>
    obtain ⟨hgap, hfirst, hrest⟩ := h
    rcases List.mem_cons.mp hmem with rfl | hmem
    · exact ⟨hgap.le, le_stop hrest⟩
    · obtain ⟨hstart, hstop⟩ := ih hrest hmem
      exact ⟨Nat.le_trans hgap.le (Nat.le_trans hfirst hstart), hstop⟩

section Merge

variable {α : Type} {le : α → α → Bool}

/-- An element that comes behind all of the second list is merged last. -/
theorem merge_concat_left {xs ys : List α} {x : α} (h : ∀ y ∈ ys, ¬le x y = true) :
    (xs ++ [x]).merge ys le = xs.merge ys le ++ [x] := by
  induction xs, ys using List.merge.induct le with
  | case1 ys =>
    rw [List.nil_append, List.nil_merge]
    induction ys with
    | nil => rw [List.merge_right, List.nil_append]
    | cons y ys ih =>
      obtain ⟨hy, hys⟩ := List.forall_mem_cons.mp h
      rw [List.cons_merge_cons_neg le _ _ hy, ih hys, List.cons_append]
  | case2 xs => rw [List.merge_right, List.merge_right]
  | case3 a xs y ys hle ih =>
    rw [List.cons_append, List.cons_merge_cons_pos le _ _ hle, List.cons_merge_cons_pos le _ _ hle,
      ih h, List.cons_append]
  | case4 a xs y ys hle ih =>
    rw [List.cons_append, List.cons_merge_cons_neg le _ _ hle, List.cons_merge_cons_neg le _ _ hle,
      ← List.cons_append, ih (List.forall_mem_cons.mp h).2, List.cons_append]

/-- An element that comes behind all of the first list is merged last. -/
theorem merge_concat_right {xs ys : List α} {y : α} (h : ∀ x ∈ xs, le x y = true) :
    xs.merge (ys ++ [y]) le = xs.merge ys le ++ [y] := by
  induction xs, ys using List.merge.induct le with
  | case1 ys => rw [List.nil_merge, List.nil_merge]
  | case2 xs =>
    rw [List.nil_append, List.merge_right]
    exact List.merge_of_le fun a b ha hb => List.mem_singleton.mp hb ▸ h a ha
  | case3 a xs b ys hle ih =>
    rw [List.cons_append, List.cons_merge_cons_pos le _ _ hle, List.cons_merge_cons_pos le _ _ hle,
      ← List.cons_append, ih (List.forall_mem_cons.mp h).2, List.cons_append]
  | case4 a xs b ys hle ih =>
    rw [List.cons_append, List.cons_merge_cons_neg le _ _ hle, List.cons_merge_cons_neg le _ _ hle,
      ih h, List.cons_append]

end Merge

/-- The span of a comment covers its value and the delimiters. -/
def Comment.IsFaithful (text : List Char) (c : Comment) : Prop :=
  slice? text c.span.start.offset c.span.stop.offset = some (c.kind.delimit c.value.toList)

/-- The value of a name, a keyword or a chunk of a template is the text it is read from, and the
end of input has no text. -/
def Lexeme.Spells (kind : TokenKind) (value : TokenValue) (text : List Char) : Prop :=
  match kind with
  | .name | .keyword _ => value = .name (String.ofList text)
  | .template => value = .template (String.ofList text)
  | .eof => text = []
  | _ => True

/-- The span of a token covers its text, and its value spells the text where it is one. -/
structure Token.IsFaithful (text : List Char) (t : Token) : Prop where
  slice : slice? text t.span.start.offset t.span.stop.offset = some t.text
  spells : Lexeme.Spells t.kind t.value t.text

namespace Lexeme

theorem spells_word (text : List Char) :
    Spells (word text).kind (word text).value (text.take (word text).length) := by
  have htake := take_length_takeWhile isIdentifierPart text
  unfold word
  dsimp only
  rw [htake]
  split <;> rfl

theorem spells_number {text written : List Char} {l : Lexeme} (h : Number.read text = .ok l) :
    Spells l.kind l.value written := by
  rw [Number.kind_of_read h]
  trivial

theorem spells_punctuator {text written : List Char} {l : Lexeme}
    (h : Punctuator.read? text = some l) : Spells l.kind l.value written := by
  have hkinds : ∀ p ∈ Punctuator.table,
      p.kind ≠ .name ∧ p.kind ≠ .template ∧ p.kind ≠ .eof ∧
        ∀ k ∈ Keyword.all, p.kind ≠ .keyword k := by
    decide
  obtain ⟨p, hp, rfl⟩ := Option.map_eq_some_iff.mp h
  obtain ⟨hname, htemplate, heof, hkeyword⟩ := hkinds p (List.mem_of_find?_eq_some hp)
  unfold Spells
  split
  · exact absurd ‹_› hname
  · rename_i k hk
    exact absurd hk (hkeyword k (by cases k <;> decide))
  · exact absurd ‹_› htemplate
  · exact absurd ‹_› heof
  · trivial

theorem spells_read {allowed : Bool} {text : List Char} {l : Lexeme}
    (h : Lexeme.read allowed text = .ok l) : Spells l.kind l.value (text.take l.length) := by
  unfold Lexeme.read at h
  split at h
  · cases h
    trivial
  split at h
  · cases h
    exact spells_word _
  split at h
  · exact spells_number h
  split at h
  · obtain ⟨r, -, rfl⟩ := Quoted.of_map h
    trivial
  split at h
  · unfold Regexp.read at h
    split at h
    · cases h
    · dsimp only at h
      split at h
      · cases h
        trivial
      · cases h
  split at h
  · rename_i hp
    cases h
    exact spells_punctuator hp
  · cases h

theorem spells_template {previous : TokenKind} {text : List Char} {l : Lexeme}
    (h : Template.read previous text = .ok l) : Spells l.kind l.value (text.take l.length) := by
  unfold Template.read at h
  split at h
  · cases h
  split at h
  · split at h <;> cases h <;> trivial
  · cases h
    rfl

end Lexeme

namespace TokenStream

variable {s t : TokenStream}

theorem spells_lexeme {l : Lexeme} (h : s.lexeme = .ok l) :
    Lexeme.Spells l.kind l.value (s.cursor.rest.take l.length) := by
  unfold lexeme at h
  split at h
  · cases h
    trivial
  split at h
  · exact Lexeme.spells_template h
  · exact Lexeme.spells_read h

/-- The spans of the recorded tokens and comments in the order in which they start. -/
def pieces (s : TokenStream) : List Span :=
  (s.tokens.toList.map (·.span)).merge (s.comments.toList.map (·.span))
    fun x y => x.start.offset ≤ y.start.offset

/-- Everything recorded tiles the text up to an offset, and has the text of its span. -/
structure IsTiled (text : List Char) (stop : Nat) (s : TokenStream) : Prop where
  pieces : Tiles text 0 stop s.pieces
  tokens : ∀ token ∈ s.tokens, token.IsFaithful text
  comments : ∀ comment ∈ s.comments, comment.IsFaithful text

theorem isTiled_ofText (text : List Char) : (ofText text).IsTiled text 0 where
  pieces := by
    show Tiles text 0 0 (List.merge [] [] _)
    rw [List.nil_merge]
    exact ⟨[], Cursor.slice?_self (Cursor.isIn_ofText text), rfl⟩
  tokens _ h := absurd h (Array.not_mem_empty _)
  comments _ h := absurd h (Array.not_mem_empty _)

/-- A comment that begins where everything recorded ends is recorded behind it. -/
theorem isTiled_push_comment {comment : Comment} {leading trailing : Array Comment}
    {cursor : Cursor} (h : s.IsTiled text comment.span.start.offset)
    (hfaithful : comment.IsFaithful text)
    (hend : BlankBetween text comment.span.stop.offset comment.span.stop.offset) :
    IsTiled text comment.span.stop.offset
      { s with
        cursor := cursor
        trailing := trailing
        leading := leading
        comments := s.comments.push comment } where
  pieces := by
    have hbehind : ∀ x ∈ s.tokens.toList.map (·.span),
        decide (x.start.offset ≤ comment.span.start.offset) = true := by
      intro x hx
      obtain ⟨token, htoken, rfl⟩ := List.mem_map.mp hx
      have hslice := (h.tokens token (Array.mem_toList_iff.mp htoken)).slice
      have hbounds := bounds_of_mem_tiles h.pieces (List.mem_merge.mpr (.inl hx))
      exact decide_eq_true (Nat.le_trans (le_of_slice? hslice) hbounds.2)
    have hpieces := tiles_concat h.pieces (le_of_slice? hfaithful) hend
    unfold TokenStream.pieces
    rwa [Array.toList_push, List.map_append, List.map_singleton, merge_concat_right hbehind]
  tokens := h.tokens
  comments := Array.forall_mem_push.mpr ⟨hfaithful, h.comments⟩

/-- The token is recorded behind all comments, which lie before it and are not empty. -/
theorem isTiled_record (h : s.IsTiled text s.token.span.start.offset)
    (hfaithful : s.token.IsFaithful text)
    (hend : BlankBetween text s.token.span.stop.offset s.token.span.stop.offset) :
    s.recorded.IsTiled text s.token.span.stop.offset where
  pieces := by
    have hbehind : ∀ y ∈ s.comments.toList.map (·.span),
        ¬decide (s.token.span.start.offset ≤ y.start.offset) = true := by
      intro y hy
      obtain ⟨comment, hcomment, rfl⟩ := List.mem_map.mp hy
      have hslice := h.comments comment (Array.mem_toList_iff.mp hcomment)
      have hlt := lt_of_slice? hslice (CommentKind.delimit_ne_nil _ _)
      have hbounds := bounds_of_mem_tiles h.pieces (List.mem_merge.mpr (.inr hy))
      simp only [decide_eq_true_eq]
      omega
    have hpieces := tiles_concat h.pieces (le_of_slice? hfaithful.slice) hend
    unfold TokenStream.pieces recorded
    rwa [Array.toList_push, List.map_append, List.map_singleton, merge_concat_left hbehind]
  tokens := Array.forall_mem_push.mpr ⟨hfaithful, h.tokens⟩
  comments := h.comments

theorem blankBetween_self {c : Cursor} (h : c.IsIn text) : BlankBetween text c.offset c.offset :=
  ⟨[], Cursor.slice?_self h, rfl⟩

theorem blankBetween_skip {c : Cursor} {n : Nat} (h : c.IsIn text)
    (hblank : (c.rest.take n).all isBlank = true) :
    BlankBetween text c.offset (c.skip n).offset :=
  ⟨_, Cursor.slice?_skip h n, hblank⟩

/-- A comment is recorded with the text that the cursor passes over. -/
theorem isTiled_addComment {kind : CommentKind} {content : List Char} {n : Nat} {lines : LineCount}
    (hc : s.cursor.IsIn text) (h : s.IsTiled text s.cursor.offset)
    (hread : s.cursor.rest.take n = kind.delimit content) :
    (s.addComment kind content n lines).IsTiled text
      (s.addComment kind content n lines).cursor.offset := by
  have hfaithful : Comment.IsFaithful text
      ⟨kind, String.ofList content, ⟨s.cursor.place, (s.cursor.pass n lines).place⟩⟩ := by
    unfold Comment.IsFaithful
    rw [String.toList_ofList, ← hread]
    exact Cursor.slice?_pass hc n lines
  exact isTiled_push_comment h hfaithful (blankBetween_self (Cursor.isIn_pass hc n lines))

/-- What is skipped is blank, or is recorded as a comment. -/
theorem isTiled_of_skip (hc : s.cursor.IsIn text) (hs : s.IsTiled text s.cursor.offset)
    (h : Skip s t) : t.cursor.IsIn text ∧ t.IsTiled text t.cursor.offset := by
  cases h with
  | @blank c rest rest_eq blank =>
    have hblank : (s.cursor.rest.take 1).all isBlank = true := by
      rw [rest_eq]
      simpa using blank
    have hpieces := tiles_blank hs.pieces (blankBetween_skip hc hblank)
    exact ⟨Cursor.isIn_skip hc 1, hpieces, hs.tokens, hs.comments⟩
  | @newLine ending rest rest_eq terminator =>
    have hblank : (s.cursor.rest.take ending.length).all isBlank = true := by
      rw [rest_eq, List.take_left, List.all_eq_true]
      exact fun c hmem => isBlank_of_terminator (terminator.all c hmem)
    have hpieces := tiles_blank hs.pieces (blankBetween_skip hc hblank)
    exact ⟨Cursor.isIn_skip hc ending.length, hpieces, hs.tokens, hs.comments⟩
  | comment written => exact ⟨Cursor.isIn_pass hc _ _, isTiled_addComment hc hs written⟩

theorem isTiled_of_skipTrivia {fuel : Nat} {u : Unit} (hc : s.cursor.IsIn text)
    (hs : s.IsTiled text s.cursor.offset) (h : skipTrivia fuel s = .ok u t) :
    t.cursor.IsIn text ∧ t.IsTiled text t.cursor.offset := by
  induction fuel generalizing s with
  | zero =>
    cases h
    exact ⟨hc, hs⟩
  | succ fuel ih =>
    rcases skipTrivia_cases s with hdone | hbad | ⟨m, hm, hrest⟩
    · rw [hdone] at h
      cases h
      exact ⟨hc, hs⟩
    · rw [hbad] at h
      cases h
    · rw [hrest] at h
      obtain ⟨hc, hs⟩ := isTiled_of_skip hc hs hm
      exact ih hc hs h

/-- A stream between two steps: everything recorded lies before the current token, which has the
text of its span and ends at the cursor. -/
structure IsCovered (text : List Char) (s : TokenStream) : Prop where
  cursor : s.cursor.IsIn text
  before : s.IsTiled text s.token.span.start.offset
  token : s.token.IsFaithful text
  stop_eq : s.token.span.stop.offset = s.cursor.offset
  rest_eq : s.token.kind = .eof → s.cursor.rest = []
  last_le : ∀ span ∈ s.last, span.stop.offset ≤ s.token.span.start.offset

/-- The end of input has no text and lies behind all characters. -/
theorem IsCovered.start_of_eof (hs : s.IsCovered text) (hk : s.token.kind = .eof) :
    s.token.span.start.offset = byteLength text := by
  obtain ⟨hslice, hspells⟩ := hs.token
  rw [hk] at hspells
  rw [show s.token.text = [] from hspells] at hslice
  obtain ⟨xs, zs, -, hstart, hstop⟩ := slice?_eq_some_iff.mp hslice
  rw [← Cursor.offset_of_rest_eq_nil hs.cursor (hs.rest_eq hk), ← hs.stop_eq, hstart, hstop]
  rfl

theorem isCovered_of_read {u : Unit} (hc : s.cursor.IsIn text)
    (hs : s.IsTiled text s.cursor.offset)
    (hlast : ∀ span ∈ s.last, span.stop.offset ≤ s.cursor.offset) (h : read s = .ok u t) :
    t.IsCovered text := by
  have here : ∀ {m : TokenStream}, m.cursor.IsIn text → m.IsTiled text m.cursor.offset →
      readHere m = .ok u t → t.cursor.IsIn text ∧
        t.IsTiled text t.token.span.start.offset ∧ t.token.IsFaithful text := by
    intro m hc hm h
    unfold readHere at h
    dsimp only at h
    split at h
    · rename_i l hl
      cases h
      refine ⟨Cursor.isIn_pass hc _ _, ⟨hm.pieces, hm.tokens, hm.comments⟩, ?_⟩
      exact ⟨Cursor.slice?_pass hc _ _, spells_lexeme hl⟩
    · cases h
  obtain ⟨hstart, -, hstop, hlast_eq, -⟩ := places_of_read h
  have hread : t.cursor.IsIn text ∧
      t.IsTiled text t.token.span.start.offset ∧ t.token.IsFaithful text := by
    unfold read at h
    split at h
    · exact here hc hs h
    · split at h
      · rename_i m hm
        obtain ⟨hc, hs⟩ := isTiled_of_skipTrivia hc hs hm
        exact here hc hs h
      · cases h
  obtain ⟨hcursor, hbefore, htoken⟩ := hread
  refine ⟨hcursor, hbefore, htoken, hstop, fun hk => ?_, fun span hmem => ?_⟩
  · cases reads_of_read h with
    | eof kind rest => exact rest
    | chunk within kind => rw [kind] at hk; cases hk
    | solid ne_eof => exact absurd hk ne_eof
  · exact Nat.le_trans (hlast span (hlast_eq ▸ hmem)) hstart

theorem isCovered_of_advance {u : Unit} (hs : s.IsCovered text) (h : advance s = .ok u t) :
    t.IsCovered text := by
  have hend : BlankBetween text s.token.span.stop.offset s.token.span.stop.offset := by
    rw [hs.stop_eq]
    exact blankBetween_self hs.cursor
  have hrecord := isTiled_record hs.before hs.token hend
  rw [hs.stop_eq] at hrecord
  have hlast : ∀ span ∈ some s.token.span, span.stop.offset ≤ s.cursor.offset := by
    rintro span ⟨⟩
    exact Nat.le_of_eq hs.stop_eq
  exact isCovered_of_read (s := s.recorded) hs.cursor hrecord hlast h

theorem isCovered_of_follows (hs : s.IsCovered text) (h : Follows s t) : t.IsCovered text := by
  induction h with
  | refl => exact hs
  | tail _ hstep ih => exact isCovered_of_advance ih hstep.2

/-- Where a text is read to its end without an error, tokens and comments tile it. Every comment
has the text of its span between delimiters, every token has the text of its span, and each token
begins where the one before it has ended or later. -/
theorem tiles_of_scan (h : (scan text).error = none) :
    (scan text).final.token.kind = .eof ∧
      Tiles text 0 (byteLength text) (scan text).final.pieces ∧
      (∀ comment ∈ (scan text).final.comments, comment.IsFaithful text) ∧
      (∀ token ∈ (scan text).final.tokens, token.IsFaithful text) ∧
      ∀ state ∈ (scan text).states, ∀ span ∈ state.last,
        span.stop.offset ≤ state.token.span.start.offset := by
  obtain ⟨s, hs⟩ := exists_first h
  have hlast : ∀ span ∈ (ofText text).last, span.stop.offset ≤ (ofText text).cursor.offset := nofun
  have hfirst : s.IsCovered text :=
    isCovered_of_read (Cursor.isIn_ofText text) (isTiled_ofText text) hlast hs
  rw [scan_eq_follow hs] at h ⊢
  obtain ⟨hfinal, heof, hstates⟩ := of_follow (Nat.le_refl _) h
  generalize (follow s.pending s).final = final at hfinal heof ⊢
  have hcovered := isCovered_of_follows hfirst hfinal
  have hstart := hcovered.start_of_eof heof
  have hbefore := hcovered.before
  rw [hstart] at hbefore
  exact ⟨heof, hbefore.pieces, hbefore.comments, hbefore.tokens,
    fun state hmem => (isCovered_of_follows hfirst (hstates state hmem)).last_le⟩

/-- A template with an empty chunk, comments of both kinds and characters of several bytes. -/
theorem tiles_of_scan_template :
    (scan "é /* ü */ `$\x7bb\x7d` // ö".toList).error = none ∧
      Tiles "é /* ü */ `$\x7bb\x7d` // ö".toList 0 24
        (scan "é /* ü */ `$\x7bb\x7d` // ö".toList).final.pieces := by
  have h : (scan "é /* ü */ `$\x7bb\x7d` // ö".toList).error = none := by decide +kernel
  exact ⟨h, (tiles_of_scan h).2.1⟩

end TokenStream

end EcmaTree
