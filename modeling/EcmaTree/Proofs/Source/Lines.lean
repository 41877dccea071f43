import EcmaTree.Proofs.Source.Slice

/-!
# The lines of a text

A text is divided into lines by its line terminators, where a carriage return and a line feed
behind it are one. The line map of a text is held against this division: it has the offset at
which each line starts, and gives back each line without its terminator. The position of an
offset is decided by the two starts around it, so positions come in the order of their offsets.
-/

namespace EcmaTree

/-- A line, and what ends it. -/
structure Line where
  content : List Char
  ending : List Char
deriving DecidableEq, Repr

/-- A line as it stands in its text. -/
def Line.written (l : Line) : List Char :=
  l.content ++ l.ending

/-- The lines of a text: a terminator ends each of them but the last, which the end of the text
ends. -/
inductive AreLines : List Line → List Char → Prop
  | last {content : List Char} (plain : hasLineBreak content = false) :
      AreLines [⟨content, []⟩] content
  | more {content ending rest : List Char} {lines : List Line}
      (plain : hasLineBreak content = false) (terminator : IsTerminator rest ending)
      (below : AreLines lines rest) :
      AreLines (⟨content, ending⟩ :: lines) (content ++ ending ++ rest)

/-- A boundary between two stretches of text that splits no carriage return from its line feed. -/
def IsClearCut (before after : List Char) : Prop :=
  before.getLast? = some '\r' → after.head? ≠ some '\n'

namespace IsClearCut

variable {xs ys zs : List Char}

theorem of_append (h : IsClearCut (xs ++ ys) zs) : IsClearCut ys zs := by
  intro hlast
  exact h (by rw [List.getLast?_append, hlast, Option.some_or])

/-- From one clear boundary to the next. -/
theorem append (h : IsClearCut xs (ys ++ zs)) (h' : IsClearCut ys zs) :
    IsClearCut (xs ++ ys) zs := by
  cases ys with
  | nil => rwa [List.append_nil]
  | cons y ys =>
    rw [IsClearCut, List.getLast?_append, List.getLast?_cons, Option.some_or]
    rwa [IsClearCut, List.getLast?_cons] at h'

end IsClearCut

variable {text rest ending content : List Char} {lines : List Line} {offset : Nat}

/-- Every text has lines. -/
theorem exists_areLines : ∀ text : List Char, ∃ lines, AreLines lines text
  | [] => ⟨_, .last rfl⟩
  | c :: rest => by
    obtain ⟨lines, hlines⟩ := exists_areLines rest
    by_cases hc : isLineTerminator c = true
    · by_cases hpair : c = '\r' ∧ rest.head? = some '\n'
      · obtain ⟨rfl, hfeed⟩ := hpair
        obtain ⟨tail, rfl⟩ := List.head?_eq_some_iff.mp hfeed
        obtain ⟨below, hbelow⟩ := exists_areLines tail
        exact ⟨⟨[], _⟩ :: below, .more rfl .carriageReturnLineFeed hbelow⟩
      · exact ⟨⟨[], _⟩ :: lines, .more rfl (.single hc fun hr hfeed => hpair ⟨hr, hfeed⟩) hlines⟩
    · have hc : isLineTerminator c = false := by simpa using hc
      cases hlines with
      | last plain => exact ⟨_, .last (hasLineBreak_cons.mpr ⟨hc, plain⟩)⟩
      | more plain terminator below =>
        exact ⟨_, .more (hasLineBreak_cons.mpr ⟨hc, plain⟩) terminator below⟩
termination_by text => text.length

namespace AreLines

/-- The lines with their terminators make up the text. -/
theorem flatMap_written (h : AreLines lines text) : lines.flatMap Line.written = text := by
  induction h with
  | last => simp [Line.written]
  | more _ _ _ ih => rw [List.flatMap_cons, ih, Line.written]

theorem of_mem (h : AreLines lines text) {l : Line} (hl : l ∈ lines) :
    hasLineBreak l.content = false ∧ ∀ c ∈ l.ending, isLineTerminator c = true := by
  induction h with
  | last plain =>
    rw [List.mem_singleton.mp hl]
    exact ⟨plain, nofun⟩
  | more plain terminator _ ih =>
    rcases List.mem_cons.mp hl with rfl | hl
    · exact ⟨plain, terminator.all⟩
    · exact ih hl

/-- All lines but one are ended by a terminator. -/
theorem length_eq (h : AreLines lines text) :
    lines.length = lines.countP (fun l => !l.ending.isEmpty) + 1 := by
  induction h with
  | last => rfl
  | more _ terminator _ ih =>
    rw [List.length_cons, List.countP_cons_of_pos (by simpa using terminator.ne_nil), ih]

/-- A line that another one follows is ended by a terminator. -/
theorem ending_ne_nil {earlier later : List Line} {line next : Line}
    (h : AreLines (earlier ++ line :: next :: later) text) : line.ending ≠ [] := by
  induction earlier generalizing text with
  | nil =>
    cases h with
    | more _ terminator => exact terminator.ne_nil
  | cons first earlier ih =>
    rw [List.cons_append] at h
    generalize hbelow : earlier ++ line :: next :: later = below at h
    cases h with
    | last => exact absurd hbelow (List.append_ne_nil_of_right_ne_nil _ (List.cons_ne_nil _ _))
    | more _ _ hlines => exact ih (hbelow ▸ hlines)

/-- A place between two characters lies in a line or at one of its ends, unless it splits a line
break. -/
theorem exists_line {before after : List Char} (h : AreLines lines (before ++ after))
    (hclear : IsClearCut before after) :
    ∃ earlier left right ending later, lines = earlier ++ ⟨left ++ right, ending⟩ :: later ∧
      before = earlier.flatMap Line.written ++ left := by
  generalize htext : before ++ after = text at h
  induction h generalizing before with
  | last => exact ⟨[], before, after, [], [], by rw [htext]; rfl, rfl⟩
  | @more content ending rest lines plain terminator below ih =>
    rw [List.append_assoc] at htext
    rcases List.append_eq_append_iff.mp htext with ⟨right, rfl, -⟩ | ⟨past, rfl, hpast⟩
    · exact ⟨[], before, right, ending, lines, rfl, rfl⟩
    -- Whatever lies behind the first line is found in the lines below it.
    have beyond : ∀ {past'}, past = ending ++ past' → rest = past' ++ after →
        ∃ earlier left right ending' later,
          ⟨content, ending⟩ :: lines = earlier ++ ⟨left ++ right, ending'⟩ :: later ∧
            content ++ past = earlier.flatMap Line.written ++ left := by
      rintro past' rfl rfl
      obtain ⟨earlier, left, right, ending', later, rfl, rfl⟩ := ih hclear.of_append.of_append rfl
      refine ⟨⟨content, ending⟩ :: earlier, left, right, ending', later, rfl, ?_⟩
      rw [List.flatMap_cons, Line.written, List.append_assoc, List.append_assoc]
    cases past with
    | nil =>
      refine ⟨[], content, [], ending, lines, by rw [List.append_nil]; rfl, ?_⟩
      rw [List.append_nil]
      rfl
    | cons c past =>
      cases terminator with
      | single =>
        obtain ⟨rfl, hrest⟩ := List.cons.inj hpast
        exact beyond rfl hrest
      | carriageReturnLineFeed =>
        obtain ⟨rfl, hfeed⟩ := List.cons.inj hpast
        cases past with
        | nil =>
          have hsplit : after = '\n' :: rest := hfeed.symm
          exact absurd (by rw [hsplit]; rfl) (hclear.of_append rfl)
        | cons d past =>
          obtain ⟨rfl, hrest⟩ : '\n' = d ∧ rest = past ++ after := List.cons.inj hfeed
          exact beyond rfl hrest

end AreLines

namespace LineMap

/-- Where lines start that come one after the other. -/
def startsFrom (offset : Nat) : List Line → List Nat
  | [] => []
  | line :: lines => offset :: startsFrom (offset + byteLength line.written) lines

theorem length_startsFrom : (startsFrom offset lines).length = lines.length := by
  induction lines generalizing offset with
  | nil => rfl
  | cons line lines ih => rw [startsFrom, List.length_cons, List.length_cons, ih]

/-- Behind some of the lines the others start at the bytes that these take. -/
theorem drop_startsFrom {n : Nat} : (startsFrom offset lines).drop n =
    startsFrom (offset + byteLength ((lines.take n).flatMap Line.written)) (lines.drop n) := by
  induction lines generalizing offset n with
  | nil => rw [List.drop_nil, startsFrom, List.drop_nil, startsFrom]
  | cons line lines ih =>
    cases n with
    | zero => rfl
    | succ n =>
      rw [startsFrom, List.drop_succ_cons, ih, List.take_succ_cons, List.flatMap_cons,
        byteLength_append, List.drop_succ_cons, Nat.add_assoc]

theorem starts_of_areLines (h : AreLines lines text) :
    offset :: laterStarts offset text = startsFrom offset lines := by
  induction h generalizing offset with
  | @last content plain =>
    have heq : laterStarts offset (content ++ []) = laterStarts (offset + byteLength content) [] :=
      laterStarts_append plain
    rw [List.append_nil] at heq
    rw [heq]
    rfl
  | more plain terminator _ ih =>
    rw [List.append_assoc, laterStarts_append plain, laterStarts_terminator terminator, ih,
      startsFrom, Line.written, byteLength_append, Nat.add_assoc]

theorem starts_eq (h : AreLines lines text) : (ofText text).starts = startsFrom 0 lines :=
  starts_of_areLines h

/-- The terminators at the end of a line are taken off, and nothing else. -/
theorem trimmed_append (hcontent : hasLineBreak content = false)
    (hending : ∀ c ∈ ending, isLineTerminator c = true) :
    lineText?.trimmed (content ++ ending) = content := by
  have hkept : content.reverse.dropWhile isLineTerminator = content.reverse := by
    refine List.dropWhile_eq_self_iff.mpr fun hlength hterminator => ?_
    have hplain := List.any_eq_false.mp hcontent _
      (List.mem_reverse.mp (List.getElem_mem hlength))
    exact hplain hterminator
  unfold lineText?.trimmed
  rw [List.reverse_append,
    List.dropWhile_append_of_pos fun c hc => hending c (List.mem_reverse.mp hc), hkept,
    List.reverse_reverse]

/-- Where a line starts, and those behind it. -/
theorem drop_starts {earlier later : List Line} (h : AreLines (earlier ++ later) text) :
    (ofText text).starts.drop earlier.length =
      startsFrom (byteLength (earlier.flatMap Line.written)) later := by
  rw [starts_eq h, drop_startsFrom, List.take_left, List.drop_left, Nat.zero_add]

/-- A line is given back without its terminator. -/
theorem lineText?_of_areLines {earlier later : List Line} {line : Line}
    (h : AreLines (earlier ++ line :: later) text) :
    (ofText text).lineText? text (earlier.length + 1) = some line.content := by
  obtain ⟨hcontent, hending⟩ := h.of_mem (List.mem_append_right _ List.mem_cons_self)
  have htrimmed : lineText?.trimmed line.written = line.content :=
    trimmed_append hcontent hending
  have htext :
      earlier.flatMap Line.written ++ line.written ++ later.flatMap Line.written = text := by
    rw [← h.flatMap_written, List.flatMap_append, List.flatMap_cons, List.append_assoc]
  unfold lineText?
  dsimp only
  rw [drop_starts h]
  cases later with
  | nil =>
    rw [List.flatMap_nil, List.append_nil] at htext
    rw [startsFrom, startsFrom, ← htext]
    dsimp only
    rw [dropBytes_append, Option.map_some, htrimmed]
  | cons next later =>
    rw [startsFrom, startsFrom, ← htext]
    dsimp only
    rw [slice?_append, Option.map_some, htrimmed]

/-- A position that counts from the start of its line, with the start of the next line behind the
offset. -/
structure Locates (m : LineMap) (p : Position) (offset : Nat) : Prop where
  line_pos : 0 < p.line
  start : ∃ start, m.starts[p.line - 1]? = some start ∧ start + p.column = offset
  next : ∀ next ∈ m.starts[p.line]?, offset < next

section Locates

variable {m : LineMap} {p q : Position} {a b : Nat}

theorem starts_sorted (text : List Char) : (ofText text).starts.Pairwise (· < ·) := by
  have later : ∀ (offset : Nat) (text : List Char),
      (laterStarts offset text).Pairwise (· < ·) := by
    intro offset text
    induction text generalizing offset with
    | nil => exact .nil
    | cons c rest ih =>
      unfold laterStarts
      dsimp only
      split
      · exact List.pairwise_cons.mpr ⟨fun _ => lt_of_mem_laterStarts, ih _⟩
      · exact ih _
  exact List.pairwise_cons.mpr ⟨fun _ => lt_of_mem_laterStarts, later 0 text⟩

/-- In a sorted list the element at a smaller index is not greater. -/
theorem start_le_start (hm : m.starts.Pairwise (· < ·)) {i j : Nat} {x y : Nat} (hij : i ≤ j)
    (hx : m.starts[i]? = some x) (hy : m.starts[j]? = some y) : x ≤ y := by
  obtain ⟨hi, rfl⟩ := List.getElem?_eq_some_iff.mp hx
  obtain ⟨hj, rfl⟩ := List.getElem?_eq_some_iff.mp hy
  rcases Nat.lt_or_eq_of_le hij with hlt | rfl
  · exact Nat.le_of_lt (List.pairwise_iff_getElem.mp hm i j hi hj hlt)
  · exact Nat.le_refl _

theorem position_of_locates (hm : m.starts.Pairwise (· < ·)) (h : m.Locates p a) :
    m.position a = p := by
  obtain ⟨start, hstart, hoffset⟩ := h.start
  have hpos := h.line_pos
  have hlt := (List.getElem?_eq_some_iff.mp hstart).1
  have hearlier : ∀ x ∈ m.starts.take p.line, x ≤ a := by
    intro x hx
    obtain ⟨i, hi⟩ := List.mem_iff_getElem?.mp hx
    have hlength := (List.getElem?_eq_some_iff.mp hi).1
    rw [List.length_take] at hlength
    rw [List.getElem?_take_of_lt (by omega)] at hi
    have hle := start_le_start hm (show i ≤ p.line - 1 by omega) hi hstart
    omega
  have hlater : ∀ x ∈ m.starts.drop p.line, a < x := by
    intro x hx
    obtain ⟨i, hi⟩ := List.mem_iff_getElem?.mp hx
    rw [List.getElem?_drop] at hi
    have hlength := (List.getElem?_eq_some_iff.mp hi).1
    have hnext : m.starts[p.line]? = some m.starts[p.line] := List.getElem?_eq_getElem (by omega)
    have hbelow := h.next _ hnext
    have hle := start_le_start hm (Nat.le_add_right p.line i) hnext hi
    omega
  have hlast : (m.starts.take p.line).getLastD 0 = start := by
    rw [List.getLastD_eq_getLast?, List.getLast?_eq_getElem?, List.length_take,
      Nat.min_eq_left (by omega), List.getElem?_take_of_lt (by omega), hstart]
    rfl
  rw [position_of_starts (List.take_append_drop p.line m.starts).symm hearlier hlater, hlast,
    List.length_take, Nat.min_eq_left (by omega), show a - start = p.column by omega]

/-- The position of an offset within a line, or at one of its ends. -/
theorem position_of_areLines {earlier later : List Line} {before behind : List Char}
    (h : AreLines (earlier ++ ⟨before ++ behind, ending⟩ :: later) text) :
    (ofText text).position (byteLength (earlier.flatMap Line.written ++ before)) =
      ⟨earlier.length + 1, byteLength before⟩ := by
  have hdrop := drop_starts h
  refine position_of_locates (starts_sorted text) ⟨Nat.succ_pos _, ?_, ?_⟩
  · refine ⟨byteLength (earlier.flatMap Line.written), ?_, (byteLength_append _ _).symm⟩
    rw [Nat.add_sub_cancel, ← List.head?_drop, hdrop]
    rfl
  · intro next hnext
    rw [← List.head?_drop, ← List.drop_drop, hdrop] at hnext
    cases later with
    | nil => cases hnext
    | cons following later =>
      cases hnext
      have hending := byteLength_pos.mpr h.ending_ne_nil
      rw [Line.written, byteLength_append, byteLength_append, byteLength_append]
      dsimp only at hending ⊢
      omega

/-- Every offset has a position if the first line starts at the beginning. -/
theorem locates_position (hfirst : m.starts.head? = some 0) (a : Nat) :
    m.Locates (m.position a) a := by
  obtain ⟨rest, hrest⟩ := List.head?_eq_some_iff.mp hfirst
  obtain ⟨earlier, hearlier⟩ : ∃ earlier, m.starts.takeWhile (· ≤ a) = earlier := ⟨_, rfl⟩
  obtain ⟨later, hlater⟩ : ∃ later, m.starts.dropWhile (· ≤ a) = later := ⟨_, rfl⟩
  have hsplit : m.starts = earlier ++ later := by
    rw [← hearlier, ← hlater, List.takeWhile_append_dropWhile]
  have hposition : m.position a = ⟨earlier.length, a - earlier.getLastD 0⟩ := by
    rw [← hearlier]
    rfl
  have hne : earlier ≠ [] := by
    rw [← hearlier, hrest, List.takeWhile_cons_of_pos (by simp)]
    exact List.cons_ne_nil _ _
  have hpos := List.length_pos_iff.mpr hne
  have hlast := List.getLast?_eq_some_getLast hne
  have htaken : ∀ start ∈ earlier, start ≤ a := by
    rw [← hearlier]
    intro start hmem
    simpa using List.mem_takeWhile_imp hmem
  have hle := htaken _ (List.getLast_mem hne)
  rw [hposition]
  refine ⟨hpos, ⟨earlier.getLast hne, ?_, ?_⟩, ?_⟩
  · rw [hsplit, List.getElem?_append_left (Nat.sub_lt hpos Nat.one_pos),
      ← List.getLast?_eq_getElem?, hlast]
  · change _ + (a - earlier.getLastD 0) = a
    rw [List.getLastD_eq_getLast?, hlast, Option.getD_some]
    omega
  · intro next hnext
    rw [hsplit, List.getElem?_append_right (Nat.le_refl _), Nat.sub_self,
      ← List.head?_eq_getElem?, ← hlater] at hnext
    have hout := List.head?_dropWhile_not (· ≤ a) m.starts
    rw [show (m.starts.dropWhile (· ≤ a)).head? = some next from hnext] at hout
    simpa using hout

/-- Of two offsets the smaller one lies on an earlier line, or in an earlier column of one line. -/
theorem earlier_of_lt (hm : m.starts.Pairwise (· < ·)) (hp : m.Locates p a) (hq : m.Locates q b)
    (hlt : a < b) : p.line < q.line ∨ p.line = q.line ∧ p.column < q.column := by
  obtain ⟨start, hstart, ha⟩ := hp.start
  obtain ⟨start', hstart', hb⟩ := hq.start
  rcases Nat.lt_trichotomy p.line q.line with hline | hline | hline
  · exact .inl hline
  · rw [hline, hstart'] at hstart
    cases hstart
    exact .inr ⟨hline, by omega⟩
  · -- The next line of `b` would start at or before the line of `a`.
    exfalso
    have hlength := (List.getElem?_eq_some_iff.mp hstart).1
    have hnext : m.starts[q.line]? = some m.starts[q.line] := List.getElem?_eq_getElem (by omega)
    have hbelow := hq.next _ hnext
    have hle := start_le_start hm (show q.line ≤ p.line - 1 by omega) hnext hstart
    omega

/-- Positions come in the order of their offsets. -/
theorem order_position (hm : m.starts.Pairwise (· < ·)) (hfirst : m.starts.head? = some 0)
    (a b : Nat) : (m.position a).order (m.position b) = compare a b := by
  have earlier := fun {a b : Nat} (hab : a < b) =>
    earlier_of_lt hm (locates_position hfirst a) (locates_position hfirst b) hab
  unfold Position.order
  rcases Nat.lt_trichotomy a b with hab | rfl | hba
  · rw [Nat.compare_eq_lt.mpr hab]
    rcases earlier hab with hline | ⟨hline, hcolumn⟩
    · rw [Nat.compare_eq_lt.mpr hline]
      rfl
    · rw [Nat.compare_eq_eq.mpr hline, Nat.compare_eq_lt.mpr hcolumn]
      rfl
  · rw [Nat.compare_eq_eq.mpr rfl, Nat.compare_eq_eq.mpr rfl, Nat.compare_eq_eq.mpr rfl]
    rfl
  · rw [Nat.compare_eq_gt.mpr hba]
    rcases earlier hba with hline | ⟨hline, hcolumn⟩
    · rw [Nat.compare_eq_gt.mpr hline]
      rfl
    · rw [Nat.compare_eq_eq.mpr hline.symm, Nat.compare_eq_gt.mpr hcolumn]
      rfl

end Locates

/-- A line map that has the lines: one for each line terminator and one more, each with the offset
at which it starts and with its text. -/
structure Describes (m : LineMap) (text : List Char) (lines : List Line) : Prop where
  written : lines.flatMap Line.written = text
  count : m.lineCount = lines.countP (fun l => !l.ending.isEmpty) + 1
  start : ∀ i < lines.length,
    m.starts[i]? = some (byteLength ((lines.take i).flatMap Line.written))
  content : ∀ i, m.lineText? text (i + 1) = lines[i]?.map Line.content

theorem describes_of_areLines (h : AreLines lines text) : (ofText text).Describes text lines where
  written := h.flatMap_written
  count := by
    rw [lineCount, starts_eq h, length_startsFrom, h.length_eq]
  start i hi := by
    have hdrop : (startsFrom 0 lines).drop i = _ := drop_startsFrom
    rw [List.drop_eq_getElem_cons hi, startsFrom, Nat.zero_add] at hdrop
    rw [starts_eq h, ← List.head?_drop, hdrop, List.head?_cons]
  content i := by
    rcases Nat.lt_or_ge i lines.length with hi | hi
    · have hsplit : lines = lines.take i ++ lines[i] :: lines.drop (i + 1) := by
        rw [← List.drop_eq_getElem_cons hi, List.take_append_drop]
      rw [hsplit] at h
      have htext := lineText?_of_areLines h
      rw [List.length_take, Nat.min_eq_left (Nat.le_of_lt hi)] at htext
      rw [htext, List.getElem?_eq_getElem hi, Option.map_some]
    · unfold lineText?
      dsimp only
      rw [starts_eq h, List.drop_of_length_le (by rwa [length_startsFrom]),
        List.getElem?_eq_none hi]
      rfl

/-- The line map of a text is exact. The text has lines, and for whatever lines it has, the map has
one start for each, one more than there are terminators, in ascending order from zero; the lines
are given back without their terminators, and with them make up the text. Every offset has one
position, which counts from the last start that is not behind it, and positions come in the order
of their offsets. -/
theorem describes_ofText (text : List Char) :
    (∃ lines, AreLines lines text) ∧
    (∀ lines, AreLines lines text → (ofText text).Describes text lines) ∧
    (ofText text).starts.Pairwise (· < ·) ∧ (ofText text).starts.head? = some 0 ∧
    (∀ offset p, (ofText text).position offset = p ↔ (ofText text).Locates p offset) ∧
    ∀ a b, ((ofText text).position a).order ((ofText text).position b) = compare a b := by
  have hsorted := starts_sorted text
  refine ⟨exists_areLines text, fun _ => describes_of_areLines, hsorted, rfl, ?_,
    order_position hsorted rfl⟩
  intro offset p
  constructor
  · rintro rfl
    exact locates_position rfl offset
  · exact position_of_locates hsorted

/-- Terminators of one, two and three bytes, one behind the other. -/
theorem describes_ofText_mixed :
    (ofText ['a', '\r', '\n', 'é', '\r', '\u2028', 'b']).Describes
      ['a', '\r', '\n', 'é', '\r', '\u2028', 'b']
      [⟨['a'], ['\r', '\n']⟩, ⟨['é'], ['\r']⟩, ⟨[], ['\u2028']⟩, ⟨['b'], []⟩] := by
  have hlines : AreLines
      [⟨['a'], ['\r', '\n']⟩, ⟨['é'], ['\r']⟩, ⟨[], ['\u2028']⟩, ⟨['b'], []⟩]
      ['a', '\r', '\n', 'é', '\r', '\u2028', 'b'] :=
    .more (by decide) .carriageReturnLineFeed
      (.more (by decide) (.single (by decide) (by decide))
        (.more (by decide) (.single (by decide) (by decide))
          (.last (by decide))))
  exact (describes_ofText _).2.1 _ hlines

end LineMap

end EcmaTree
