import EcmaTree.Proofs.Source.Plain
import EcmaTree.Source.Cursor
import EcmaTree.Source.LineMap

/-!
# Exact places

A place is exact in a text if it lies between two characters of it and has the line and the
column that the line map of the text gives for its offset. The readers of blanks, of
comments and of tokens each count the lines in what they read, and the line map finds all lines
beforehand. A count agrees with the map if a cursor that agrees with it before the counted
characters agrees with it behind them: its line is the last one of the map that starts at or
before it.
-/

namespace EcmaTree

variable {text rest ending content : List Char} {offset : Nat}

structure Place.IsExact (text : List Char) (p : Place) : Prop where
  boundary : ∃ before after, text = before ++ after ∧ p.offset = byteLength before
  position_eq : p.position = (LineMap.ofText text).position p.offset

theorem Place.IsExact.offset_le {p : Place} (h : p.IsExact text) : p.offset ≤ byteLength text := by
  obtain ⟨before, after, rfl, heq⟩ := h.boundary
  rw [heq, byteLength_append]
  exact Nat.le_add_right _ _

structure Span.IsExact (text : List Char) (s : Span) : Prop where
  start : s.start.IsExact text
  stop : s.stop.IsExact text

theorem Span.isExact_closing {p q : Place} (hp : p.IsExact text) (hq : q.IsExact text) :
    (Span.closing p q).IsExact text := by
  unfold Span.closing
  split
  · exact ⟨hp, hp⟩
  · exact ⟨hp, hq⟩

namespace LineMap

theorem lt_of_mem_laterStarts {offset start : Nat} (h : start ∈ laterStarts offset text) :
    offset < start := by
  induction text generalizing offset with
  | nil => cases h
  | cons c rest ih =>
    have hsize := c.utf8Size_pos
    unfold laterStarts at h
    dsimp only at h
    split at h
    · rcases List.mem_cons.mp h with rfl | h
      · omega
      · have hlt := ih h
        omega
    · have hlt := ih h
      omega

/-- The map ends lines at the same characters at which the readers of tokens end them. -/
theorem endsLine_eq (c : Char) (rest : List Char) :
    endsLine c rest = (isLineTerminator c && !(c == '\r' && rest.head? == some '\n')) := by
  unfold endsLine
  split
  all_goals simp_all [isLineTerminator, bne]

theorem laterStarts_append (h : hasLineBreak content = false) :
    laterStarts offset (content ++ rest) = laterStarts (offset + byteLength content) rest := by
  induction content generalizing offset with
  | nil => rfl
  | cons c content ih =>
    obtain ⟨hc, hcontent⟩ := hasLineBreak_cons.mp h
    have hend : endsLine c (content ++ rest) = false := by
      rw [endsLine_eq, hc, Bool.false_and]
    rw [List.cons_append, laterStarts, hend, ih hcontent, byteLength, Nat.add_assoc]
    rfl

theorem laterStarts_terminator (h : IsTerminator rest ending) :
    laterStarts offset (ending ++ rest) =
      (offset + byteLength ending) :: laterStarts (offset + byteLength ending) rest := by
  cases h with
  | carriageReturnLineFeed => rfl
  | @single c terminator whole =>
    have hend : endsLine c rest = true := by
      rw [endsLine_eq, terminator, Bool.true_and, Bool.not_eq_true', Bool.and_eq_false_iff]
      by_cases hc : c = '\r'
      · exact .inr (beq_eq_false_iff_ne.mpr (whole hc))
      · exact .inl (beq_eq_false_iff_ne.mpr hc)
    rw [List.singleton_append, laterStarts, hend, byteLength, byteLength]
    rfl

/-- The lines that start at or before an offset decide its position. -/
theorem position_of_starts {m : LineMap} {offset : Nat} {earlier later : List Nat}
    (hm : m.starts = earlier ++ later) (hearlier : ∀ start ∈ earlier, start ≤ offset)
    (hlater : ∀ start ∈ later, offset < start) :
    m.position offset = ⟨earlier.length, offset - earlier.getLastD 0⟩ := by
  have htaken : m.starts.takeWhile (· ≤ offset) = earlier := by
    rw [hm, List.takeWhile_append_of_pos fun start h => decide_eq_true (hearlier start h)]
    cases later with
    | nil => rw [List.takeWhile_nil, List.append_nil]
    | cons start rest =>
      have hlt := hlater start List.mem_cons_self
      rw [List.takeWhile_cons_of_neg (by simpa using hlt), List.append_nil]
  unfold position
  rw [htaken]

end LineMap

/-- The rest of the text begins at the offset. -/
def BeginsAt (text : List Char) (offset : Nat) (rest : List Char) : Prop :=
  ∃ before, text = before ++ rest ∧ offset = byteLength before

namespace Cursor

/-- A cursor that stands between two characters of the text. -/
def IsIn (text : List Char) (c : Cursor) : Prop :=
  BeginsAt text c.offset c.rest

/-- A cursor in a text whose line and line start are those of the line map. -/
structure Reads (text : List Char) (c : Cursor) : Prop where
  split : c.IsIn text
  starts : ∃ earlier,
    (LineMap.ofText text).starts = earlier ++ LineMap.laterStarts c.offset c.rest ∧
    earlier.length = c.line ∧ earlier.getLast? = some c.lineStart ∧
    ∀ start ∈ earlier, start ≤ c.offset

variable {c : Cursor} {m n : Nat} {lines : LineCount}

theorem isIn_ofText (text : List Char) : (ofText text).IsIn text :=
  ⟨[], rfl, rfl⟩

/-- Behind a number of characters the cursor stands between two characters again. -/
theorem isIn_of_drop {d : Cursor} (h : c.IsIn text) (hrest : d.rest = c.rest.drop n)
    (hoffset : d.offset = c.offset + byteLength (c.rest.take n)) : d.IsIn text := by
  obtain ⟨before, htext, hbefore⟩ := h
  refine ⟨before ++ c.rest.take n, ?_, ?_⟩
  · rw [hrest, List.append_assoc, List.take_append_drop, htext]
  · rw [hoffset, hbefore, byteLength_append]

theorem isIn_skip (h : c.IsIn text) (n : Nat) : (c.skip n).IsIn text :=
  isIn_of_drop h (skip_rest n c) (skip_offset n c)

theorem isIn_pass (h : c.IsIn text) (n : Nat) (lines : LineCount) : (c.pass n lines).IsIn text :=
  isIn_of_drop h (pass_rest n lines c) (pass_offset n lines c)

theorem reads_ofText (text : List Char) : (ofText text).Reads text := by
  refine ⟨isIn_ofText text, [0], rfl, rfl, rfl, ?_⟩
  intro start h
  rw [List.mem_singleton.mp h]
  exact Nat.zero_le _

/-! ### Moving without counting, and beginning a line -/

/-- Skipping moves the cursor and leaves its line alone. -/
theorem skip_eq (n : Nat) (c : Cursor) :
    c.skip n = { c with rest := (c.skip n).rest, offset := (c.skip n).offset } := by
  induction n generalizing c with
  | zero => rfl
  | succ n ih =>
    unfold skip
    split
    · rfl
    · rw [ih]

theorem skip_line (n : Nat) (c : Cursor) : (c.skip n).line = c.line := by
  rw [skip_eq]

theorem skip_lineStart (n : Nat) (c : Cursor) : (c.skip n).lineStart = c.lineStart := by
  rw [skip_eq]

/-- Over characters of its line a cursor may move without counting. -/
theorem reads_skip (h : c.Reads text) (hplain : hasLineBreak (c.rest.take n) = false) :
    (c.skip n).Reads text := by
  obtain ⟨earlier, hstarts, hline, hlast, hle⟩ := h.starts
  refine ⟨isIn_skip h.split n, earlier, ?_, ?_, ?_, ?_⟩
  · rw [hstarts, skip_offset, skip_rest, ← LineMap.laterStarts_append hplain,
      List.take_append_drop]
  · rw [skip_line, hline]
  · rw [skip_lineStart, hlast]
  · intro start hmem
    rw [skip_offset]
    exact Nat.le_add_right_of_le (hle start hmem)

/-- Behind a line terminator a line begins. -/
theorem reads_newLine (h : c.Reads text) (hr : c.rest = ending ++ rest)
    (hending : IsTerminator rest ending) : (c.skip ending.length).newLine.Reads text := by
  obtain ⟨earlier, hstarts, hline, hlast, hle⟩ := h.starts
  have hrest : (c.skip ending.length).rest = rest := by
    rw [skip_rest, hr, List.drop_left]
  have hoffset : (c.skip ending.length).offset = c.offset + byteLength ending := by
    rw [skip_offset, hr, List.take_left]
  refine ⟨isIn_skip h.split _, earlier ++ [c.offset + byteLength ending], ?_, ?_, ?_, ?_⟩
  · change _ = _ ++ LineMap.laterStarts (c.skip ending.length).offset (c.skip ending.length).rest
    rw [hstarts, hr, LineMap.laterStarts_terminator hending, hrest, hoffset, List.append_assoc,
      List.singleton_append]
  · change _ = (c.skip ending.length).line + 1
    rw [List.length_append, List.length_singleton, hline, skip_line]
  · change _ = some (c.skip ending.length).offset
    rw [List.getLast?_append, List.getLast?_singleton, Option.some_or, hoffset]
  · intro start hmem
    change start ≤ (c.skip ending.length).offset
    rw [hoffset]
    rcases List.mem_append.mp hmem with hmem | hmem
    · exact Nat.le_add_right_of_le (hle start hmem)
    · exact Nat.le_of_eq (List.mem_singleton.mp hmem)

/-! ### Counting from the beginning of a token -/

theorem skip_of_nil (h : c.rest = []) : c.skip n = c := by
  cases n with
  | zero => rfl
  | succ n => rw [skip, h]

theorem skip_add (m n : Nat) (c : Cursor) : c.skip (m + n) = (c.skip m).skip n := by
  induction m generalizing c with
  | zero => rw [Nat.zero_add, skip]
  | succ m ih =>
    rw [Nat.add_right_comm]
    cases hr : c.rest with
    | nil => rw [skip_of_nil hr, skip_of_nil hr, skip_of_nil hr]
    | cons ch rest =>
      simp only [skip, hr]
      exact ih _

/-- The line of a cursor does not matter to where it comes by skipping. -/
theorem skip_with (n line lineStart : Nat) (c : Cursor) :
    skip n { c with line := line, lineStart := lineStart } =
      { c.skip n with line := line, lineStart := lineStart } := by
  induction n generalizing c with
  | zero => rfl
  | succ n ih =>
    cases hr : c.rest with
    | nil => simp only [skip, hr]
    | cons ch rest =>
      simp only [skip, hr, ih { c with rest := rest, offset := c.offset + ch.utf8Size }]

theorem pass_zero (n : Nat) (c : Cursor) : c.pass n .zero = c.skip n :=
  rfl

theorem pass_add (m n : Nat) (lines : LineCount) (c : Cursor) :
    c.pass (m + n) lines = (c.pass m lines).skip n := by
  unfold pass
  dsimp only
  split
  · exact skip_add m n c
  · rw [skip_add]
    exact (skip_with n _ _ (c.skip m)).symm

theorem pass_newLine (n : Nat) (lines : LineCount) (c : Cursor) :
    c.pass n (lines.newLine n) = (c.pass n lines).newLine := by
  unfold pass LineCount.newLine
  dsimp only
  rw [if_neg (Nat.succ_ne_zero _)]
  split
  · rename_i hzero
    rw [newLine, skip_line, hzero]
  · rfl

/-- The line is that of the counted lines, however many characters are passed over. -/
theorem place_pass (m n : Nat) (lines : LineCount) (c : Cursor) :
    (c.pass m lines).place = (c.pass n lines).placeOf (c.skip m).offset := by
  unfold pass
  dsimp only
  split
  · unfold place placeOf
    rw [skip_line, skip_line, skip_lineStart, skip_lineStart]
  · rfl

/-- Behind the end of the text a cursor moves no further. -/
theorem pass_of_length_le (h : c.rest.length ≤ n) :
    c.pass n lines = c.pass c.rest.length lines := by
  obtain ⟨k, rfl⟩ := Nat.exists_eq_add_of_le h
  rw [pass_add]
  exact skip_of_nil (by rw [pass_rest, List.drop_length])

end Cursor

namespace LineCount

variable {m n : Nat} {lines : LineCount}

/-- The lines that begin in the first `n` characters are counted as in the line map: a cursor before
these characters that agrees with the map agrees with it behind them. -/
def Counts (lines : LineCount) (n : Nat) (content : List Char) : Prop :=
  ∀ (text : List Char) (c : Cursor), c.Reads text → c.rest = content → (c.pass n lines).Reads text

theorem counts_zero : zero.Counts 0 content := by
  intro text c hc _
  exact hc

theorem counts_skip (h : lines.Counts m content)
    (hplain : hasLineBreak ((content.drop m).take n) = false) : lines.Counts (m + n) content := by
  intro text c hc hr
  rw [Cursor.pass_add]
  exact Cursor.reads_skip (h text c hc hr) (by rwa [Cursor.pass_rest, hr])

theorem counts_newLine (h : lines.Counts m content) (hr : content.drop m = ending ++ rest)
    (hending : IsTerminator rest ending) :
    (lines.newLine (m + ending.length)).Counts (m + ending.length) content := by
  intro text c hc hcontent
  rw [Cursor.pass_newLine, Cursor.pass_add]
  exact Cursor.reads_newLine (h text c hc hcontent) (by rw [Cursor.pass_rest, hcontent, hr]) hending

/-- Behind the end of the text it does not matter how many characters are passed over. -/
theorem counts_of_length_le (h : lines.Counts m content) (hm : content.length ≤ m)
    (hn : content.length ≤ n) : lines.Counts n content := by
  intro text c hc hr
  have hreads := h text c hc hr
  rw [Cursor.pass_of_length_le (hr ▸ hm)] at hreads
  rwa [Cursor.pass_of_length_le (hr ▸ hn)]

/-- Where no line ends there is nothing to count. -/
theorem counts_plain (h : hasLineBreak (content.take n) = false) : zero.Counts n content := by
  rw [← Nat.zero_add n]
  exact counts_skip counts_zero h

end LineCount

namespace Cursor

variable {c : Cursor}

namespace Reads

/-- The line of a cursor starts at or before it, so its column is a true difference. -/
theorem lineStart_le (h : c.Reads text) : c.lineStart ≤ c.offset := by
  obtain ⟨earlier, -, -, hlast, hle⟩ := h.starts
  exact hle _ (List.mem_of_getLast? hlast)

theorem place (h : c.Reads text) : c.place.IsExact text := by
  obtain ⟨before, htext, hoffset⟩ := h.split
  obtain ⟨earlier, hstarts, hline, hlast, hle⟩ := h.starts
  refine ⟨⟨before, c.rest, htext, hoffset⟩, ?_⟩
  have hposition := LineMap.position_of_starts hstarts hle fun _ => LineMap.lt_of_mem_laterStarts
  rw [List.getLastD_eq_getLast?, hlast, hline] at hposition
  exact hposition.symm

theorem offset_le (h : c.Reads text) : c.offset ≤ byteLength text :=
  h.place.offset_le

end Reads

/-- The place before all characters. -/
theorem isExact_origin (text : List Char) : Place.IsExact text ⟨0, 1, 0⟩ :=
  (reads_ofText text).place

end Cursor

end EcmaTree
