import EcmaTree.Proofs.Token.Spelling
import Mathlib.Data.Nat.Digits.Defs
import Mathlib.Tactic.Ring

/-!
# What a string literal stands for

A grammar of what stands between two quotes, and the characters that it means: a character that
is no quote, no backslash and no line terminator means itself, and an escape means a character
or nothing. A code is written in hexadecimal digits, in braces or in a fixed number of places;
of the fixed places the first may be a plus sign. That sign is the one rule by which the literals
that are read exceed the documented ones.

Reading a literal and the grammar agree in both directions (`read_string_iff`): whatever is read
is built by the rules and is given the characters they mean, and every text that is built by the
rules is read.
-/

namespace EcmaTree.Quoted

/-- Letters that stand for a control character. -/
def controls : List (Char × Char) :=
  [('n', '\n'), ('r', '\r'), ('t', '\t'), ('b', '\x08'), ('v', '\x0b'), ('f', '\x0c')]

/-- The letters before a code in a fixed number of places, and that number. -/
def fixedWidths : List (Char × Nat) :=
  [('x', 2), ('u', 4)]

/-- Hexadecimal digits, at least one, that write the code of a character. -/
structure WritesCode (digits : List Char) (c : Char) : Prop where
  ne_nil : digits ≠ []
  code : ∃ values : List Nat, digits.map (digitValue? 16) = values.map some ∧
    Nat.ofDigits 16 values.reverse = c.toNat

/-- The same with digits behind a plus sign, or with digits alone. -/
def WritesSigned (code : List Char) (c : Char) : Prop :=
  WritesCode code c ∨ ∃ digits, code = '+' :: digits ∧ WritesCode digits c

/-- What may be written behind a backslash and what it means, where `next` comes after it. -/
inductive IsEscape (next : Option Char) : List Char → List Char → Prop
  | control {letter c : Char} (mem : (letter, c) ∈ controls) : IsEscape next [letter] [c]
  | null (next_digit : next.any isDecimalDigit = false) : IsEscape next ['0'] ['\x00']
  | fixed {letter c : Char} {digits : List Char} (mem : (letter, digits.length) ∈ fixedWidths)
    (code : WritesCode digits c) : IsEscape next (letter :: digits) [c]
  | signed {letter c : Char} {digits : List Char}
    (mem : (letter, digits.length + 1) ∈ fixedWidths) (code : WritesCode digits c) :
    IsEscape next (letter :: '+' :: digits) [c]
  | braced {c : Char} {digits : List Char} (code : WritesCode digits c) :
    IsEscape next ('u' :: '\x7b' :: (digits ++ ['\x7d'])) [c]
  | carriageReturnLineFeed : IsEscape next ['\r', '\n'] []
  | lineTerminator {c : Char} (terminator : isLineTerminator c = true)
    (whole : c = '\r' → next ≠ some '\n') : IsEscape next [c] []
  | other {c : Char} (control : c ∉ controls.map Prod.fst) (fixed : c ∉ fixedWidths.map Prod.fst)
    (terminator : isLineTerminator c = false)
    (null : c = '0' → next.any isDecimalDigit = true) : IsEscape next [c] [c]

/-- What stands between two quotes, and the characters that it means. -/
inductive IsBody (quote : Char) : List Char → List Char → Prop
  | nil : IsBody quote [] []
  | plain {c : Char} {body cooked : List Char} (ne_quote : c ≠ quote) (ne_backslash : c ≠ '\\')
    (terminator : isLineTerminator c = false) (rest : IsBody quote body cooked) :
    IsBody quote (c :: body) (c :: cooked)
  | escape {written meant body cooked : List Char}
    (escape : IsEscape (body ++ [quote]).head? written meant) (rest : IsBody quote body cooked) :
    IsBody quote ('\\' :: (written ++ body)) (meant ++ cooked)

/-! ### Codes -/

theorem scalar?_eq_some_iff {n : Nat} {c : Char} : scalar? n = some c ↔ n = c.toNat := by
  unfold scalar?
  constructor
  · intro h
    split at h
    · rename_i hn
      cases h
      have hvalid : n.isValidChar := by
        simp only [Nat.isValidChar]
        omega
      rw [Char.ofNat, dif_pos hvalid]
      rfl
    · cases h
  · rintro rfl
    have hvalid : c.toNat.isValidChar := c.valid
    simp only [Nat.isValidChar] at hvalid
    rw [if_pos (by omega), Char.ofNat_toNat]

/-- Folding the digits onto a number shifts it by one place for every digit. -/
theorem foldlM_eq_some_iff {digits : List Char} {start n : Nat} :
    digits.foldlM (fun n c => (digitValue? 16 c).map (16 * n + ·)) start = some n ↔
      ∃ values : List Nat, digits.map (digitValue? 16) = values.map some ∧
        Nat.ofDigits 16 (values.reverse ++ [start]) = n := by
  induction digits generalizing start with
  | nil =>
    constructor
    · intro h
      exact ⟨[], rfl, (Nat.ofDigits_singleton).trans (Option.some.inj h)⟩
    · rintro ⟨values, hvalues, rfl⟩
      rw [List.map_eq_nil_iff.mp hvalues.symm]
      exact congrArg some Nat.ofDigits_singleton.symm
  | cons d digits ih =>
    have step : ∀ v values, Nat.ofDigits 16 ((v :: values).reverse ++ [start]) =
        Nat.ofDigits 16 (values.reverse ++ [16 * start + v]) := by
      intro v values
      simp only [List.reverse_cons, List.append_assoc, Nat.ofDigits_append, List.singleton_append,
        Nat.ofDigits_cons, Nat.ofDigits_nil]
      ring
    rw [List.foldlM_cons]
    constructor
    · intro h
      cases hd : digitValue? 16 d with
      | none =>
        rw [hd] at h
        cases h
      | some v =>
        rw [hd] at h
        obtain ⟨values, hvalues, hn⟩ := ih.mp h
        refine ⟨v :: values, ?_, (step v values).trans hn⟩
        rw [List.map_cons, List.map_cons, hd, hvalues]
    · rintro ⟨values, hvalues, hn⟩
      cases values with
      | nil => cases hvalues
      | cons v values =>
        obtain ⟨hd, hvalues⟩ := List.cons.inj hvalues
        rw [hd]
        exact ih.mpr ⟨values, hvalues, (step v values).symm.trans hn⟩

theorem hexNumber?_bind_eq_some_iff {digits : List Char} {c : Char} :
    (hexNumber? digits).bind scalar? = some c ↔ WritesCode digits c := by
  have hzero : ∀ values : List Nat,
      Nat.ofDigits 16 (values.reverse ++ [0]) = Nat.ofDigits 16 values.reverse := by
    intro values
    simp [Nat.ofDigits_append]
  rw [Option.bind_eq_some_iff]
  simp only [scalar?_eq_some_iff]
  constructor
  · rintro ⟨n, hn, rfl⟩
    unfold hexNumber? at hn
    split at hn
    · cases hn
    · rename_i hne
      obtain ⟨values, hvalues, hcode⟩ := foldlM_eq_some_iff.mp hn
      exact ⟨fun h => hne (List.isEmpty_iff.mpr h), values, hvalues,
        (hzero values).symm.trans hcode⟩
  · rintro ⟨hne, values, hvalues, hcode⟩
    refine ⟨c.toNat, ?_, rfl⟩
    unfold hexNumber?
    rw [if_neg (fun h => hne (List.isEmpty_iff.mp h))]
    exact foldlM_eq_some_iff.mpr ⟨values, hvalues, (hzero values).trans hcode⟩

theorem WritesCode.isDigit {digits : List Char} {c : Char} (h : WritesCode digits c) :
    ∀ d ∈ digits, isDigit 16 d = true := by
  obtain ⟨values, hvalues, -⟩ := h.code
  intro d hd
  have hmem : digitValue? 16 d ∈ values.map some := hvalues ▸ List.mem_map_of_mem hd
  obtain ⟨v, -, hv⟩ := List.mem_map.mp hmem
  rw [EcmaTree.isDigit, ← hv]
  rfl

/-! ### Escapes -/

/-- No code begins with a plus sign, so the sign is read only where the digits follow it. -/
theorem signedHexNumber?_bind_eq_some_iff {code : List Char} {c : Char} :
    (signedHexNumber? code).bind scalar? = some c ↔ WritesSigned code c := by
  unfold signedHexNumber?
  split
  · rename_i digits
    rw [hexNumber?_bind_eq_some_iff]
    constructor
    · intro h
      exact .inr ⟨digits, rfl, h⟩
    · rintro (h | ⟨digits', he, h⟩)
      · exact absurd (h.isDigit '+' List.mem_cons_self) (by decide)
      · rw [(List.cons.inj he).2]
        exact h
  · rename_i hplus
    rw [hexNumber?_bind_eq_some_iff]
    constructor
    · exact .inl
    · rintro (h | ⟨digits, rfl, -⟩)
      · exact h
      · exact absurd rfl (hplus digits)

theorem fixedEscape_eq_ok_iff {width : Nat} {text : List Char} {e : Escape} :
    fixedEscape width text = .ok e ↔ ∃ code rest c, text = code ++ rest ∧ code.length = width ∧
      WritesSigned code c ∧ e = ⟨[c], width + 1, false⟩ := by
  unfold fixedEscape fixedCode?
  dsimp only
  constructor
  · intro h
    split at h
    · rename_i c hc
      cases h
      split at hc
      · rename_i hlength
        exact ⟨text.take width, text.drop width, c, (List.take_append_drop width text).symm,
          hlength, signedHexNumber?_bind_eq_some_iff.mp hc, rfl⟩
      · cases hc
    · cases h
  · rintro ⟨code, rest, c, rfl, rfl, hcode, rfl⟩
    rw [List.take_left, if_pos rfl, signedHexNumber?_bind_eq_some_iff.mpr hcode]

/-- Of the characters behind an opening brace the longest run of digits is the code. -/
theorem bracedEscape_eq_ok_iff {text : List Char} {e : Escape} :
    bracedEscape text = .ok e ↔ ∃ digits rest c, text = digits ++ '\x7d' :: rest ∧
      WritesCode digits c ∧ e = ⟨[c], digits.length + 3, false⟩ := by
  unfold bracedEscape
  dsimp only
  constructor
  · intro h
    split at h
    · cases h
    · rename_i hbrace
      split at h
      · rename_i c hc
        cases h
        simp only [Bool.or_eq_true, bne_iff_ne, not_or, not_not] at hbrace
        obtain ⟨rest, hrest⟩ := List.head?_eq_some_iff.mp hbrace.2
        refine ⟨text.takeWhile (isDigit 16), rest, c, ?_, hexNumber?_bind_eq_some_iff.mp hc, rfl⟩
        have hrun := List.prefix_iff_eq_take.mp (List.takeWhile_prefix (isDigit 16) (l := text))
        conv_lhs => rw [← List.take_append_drop (text.takeWhile (isDigit 16)).length text]
        rw [← hrun, hrest]
      · cases h
  · rintro ⟨digits, rest, c, rfl, hcode, rfl⟩
    have hdigits : (digits ++ '\x7d' :: rest).takeWhile (isDigit 16) = digits := by
      rw [List.takeWhile_append_of_pos hcode.isDigit, List.takeWhile_cons_of_neg (by decide),
        List.append_nil]
    have hne : digits.isEmpty = false := by
      simpa using hcode.ne_nil
    rw [hdigits, List.drop_left, hne, hexNumber?_bind_eq_some_iff.mpr hcode]
    rfl

theorem exists_of_fixedEscape {letter : Char} {width : Nat} {text : List Char} {e : Escape}
    (hmem : (letter, width) ∈ fixedWidths) (h : fixedEscape width text = .ok e) :
    ∃ written rest, letter :: text = written ++ rest ∧ e.length = written.length ∧
      e.newLine = e.cooked.isEmpty ∧ IsEscape rest.head? written e.cooked := by
  obtain ⟨code, rest, c, rfl, rfl, hcode, rfl⟩ := fixedEscape_eq_ok_iff.mp h
  refine ⟨letter :: code, rest, rfl, rfl, rfl, ?_⟩
  rcases hcode with hcode | ⟨digits, rfl, hcode⟩
  · exact .fixed hmem hcode
  · exact .signed hmem hcode

/-- Before a digit a zero stands for itself. -/
theorem readEscape_zero (rest : List Char) : readEscape ('0' :: rest) =
    .ok ⟨[if rest.head?.any isDecimalDigit then '0' else '\x00'], 1, false⟩ := rfl

/-- An escape that is read is written by one of the rules, and a line begins behind those that
stand for nothing. -/
theorem exists_of_readEscape {text : List Char} {e : Escape} (h : readEscape text = .ok e) :
    ∃ written rest, text = written ++ rest ∧ e.length = written.length ∧
      e.newLine = e.cooked.isEmpty ∧ IsEscape rest.head? written e.cooked := by
  unfold readEscape at h
  split at h
  · cases h
  -- The letters for control characters.
  iterate 6
    · cases h
      exact ⟨[_], _, rfl, rfl, rfl, .control (by decide)⟩
  · rename_i rest
    cases h
    refine ⟨['0'], rest, rfl, rfl, rfl, ?_⟩
    by_cases hdigit : rest.head?.any isDecimalDigit = true
    · rw [if_pos hdigit]
      exact .other (by decide) (by decide) (by decide) fun _ => hdigit
    · rw [if_neg hdigit]
      exact .null (by simpa using hdigit)
  · exact exists_of_fixedEscape (by decide) h
  · obtain ⟨digits, rest, c, rfl, hcode, rfl⟩ := bracedEscape_eq_ok_iff.mp h
    exact ⟨'u' :: '\x7b' :: (digits ++ ['\x7d']), rest, by simp, by simp, rfl, .braced hcode⟩
  · exact exists_of_fixedEscape (by decide) h
  · cases h
    exact ⟨['\r', '\n'], _, rfl, rfl, rfl, .carriageReturnLineFeed⟩
  -- A character that begins no rule of its own.
  · rename_i c rest hn hr ht hb hv hf h0 hx hu hu' hcrlf
    split at h
    · rename_i hterminator
      cases h
      refine ⟨[c], rest, rfl, rfl, rfl, .lineTerminator hterminator fun hc hnext => ?_⟩
      obtain ⟨tail, htail⟩ := List.head?_eq_some_iff.mp hnext
      exact hcrlf tail hc htail
    · rename_i hterminator
      cases h
      refine ⟨[c], rest, rfl, rfl, rfl, ?_⟩
      refine .other ?_ ?_ (by simpa using hterminator) fun hc => absurd hc h0
      · simpa [controls] using ⟨hn, hr, ht, hb, hv, hf⟩
      · simpa [fixedWidths] using ⟨hx, hu'⟩

/-- After the letter before a code the code is read, unless a brace comes first. -/
theorem readEscape_fixed {letter : Char} {width : Nat} {text : List Char}
    (hmem : (letter, width) ∈ fixedWidths) (hbrace : text.head? ≠ some '\x7b') :
    readEscape (letter :: text) = fixedEscape width text := by
  have hletter : (letter = 'x' ∧ width = 2) ∨ (letter = 'u' ∧ width = 4) := by
    simpa [fixedWidths] using hmem
  rcases hletter with ⟨rfl, rfl⟩ | ⟨rfl, rfl⟩
  · rfl
  · cases text with
    | nil => rfl
    | cons c text =>
      have hc : c ≠ '\x7b' := fun h => hbrace (congrArg some h)
      simp [readEscape, hc]

theorem WritesCode.head?_append_ne {digits rest : List Char} {c : Char} (h : WritesCode digits c) :
    (digits ++ rest).head? ≠ some '\x7b' := by
  obtain ⟨d, digits', rfl⟩ := List.exists_cons_of_ne_nil h.ne_nil
  intro hd
  have hdigit := h.isDigit d List.mem_cons_self
  rw [Option.some.inj hd] at hdigit
  exact absurd hdigit (by decide)

/-- An escape that is written by one of the rules is read, whatever comes after it. -/
theorem readEscape_of_isEscape {written meant rest : List Char}
    (h : IsEscape rest.head? written meant) :
    readEscape (written ++ rest) = .ok ⟨meant, written.length, meant.isEmpty⟩ := by
  cases h with
  | control mem =>
    simp only [controls, List.mem_cons, Prod.mk.injEq, List.not_mem_nil, or_false] at mem
    rcases mem with ⟨rfl, rfl⟩ | ⟨rfl, rfl⟩ | ⟨rfl, rfl⟩ | ⟨rfl, rfl⟩ | ⟨rfl, rfl⟩ | ⟨rfl, rfl⟩ <;>
      rfl
  | null next_digit =>
    rw [List.singleton_append, readEscape_zero, next_digit]
    rfl
  | @fixed letter c digits mem code =>
    rw [List.cons_append, readEscape_fixed mem code.head?_append_ne]
    exact fixedEscape_eq_ok_iff.mpr ⟨digits, rest, c, rfl, rfl, .inl code, rfl⟩
  | @signed letter c digits mem code =>
    rw [List.cons_append, readEscape_fixed mem (by simp)]
    exact fixedEscape_eq_ok_iff.mpr
      ⟨'+' :: digits, rest, c, rfl, rfl, .inr ⟨digits, rfl, code⟩, rfl⟩
  | @braced c digits code =>
    change bracedEscape (digits ++ ['\x7d'] ++ rest) = _
    rw [List.append_assoc]
    refine bracedEscape_eq_ok_iff.mpr ⟨digits, rest, c, rfl, code, ?_⟩
    simp
  | carriageReturnLineFeed => rfl
  | @lineTerminator c terminator whole =>
    have hc : ((c = '\n' ∨ c = '\r') ∨ c = '\u2028') ∨ c = '\u2029' := by
      simpa [isLineTerminator] using terminator
    rcases hc with ((rfl | rfl) | rfl) | rfl
    · rfl
    · cases rest with
      | nil => rfl
      | cons d tail =>
        have hd : d ≠ '\n' := fun h => whole rfl (congrArg some h)
        simp [readEscape, hd, isLineTerminator]
    · rfl
    · rfl
  | @other c control fixed terminator null =>
    by_cases h0 : c = '0'
    · subst h0
      rw [List.singleton_append, readEscape_zero, null rfl]
      rfl
    · have hr : c ≠ '\r' := by
        rintro rfl
        cases terminator
      simp only [controls, fixedWidths, List.map_cons, List.map_nil, List.mem_cons,
        List.not_mem_nil, or_false, not_or] at control fixed
      simp [readEscape, control, fixed, hr, terminator]

/-- A line begins behind an escape that stands for nothing, and none in any other. -/
theorem IsEscape.lines {written meant rest : List Char} (h : IsEscape rest.head? written meant) :
    (meant = [] ∧ IsTerminator rest written) ∨ (meant ≠ [] ∧ hasLineBreak written = false) := by
  have digits : ∀ {digits : List Char} {c : Char}, WritesCode digits c →
      hasLineBreak digits = false :=
    fun hcode => plain_of_forall (by decide) hcode.isDigit
  have letter : ∀ {letter : Char} {width : Nat}, (letter, width) ∈ fixedWidths →
      isLineTerminator letter = false := by
    intro letter width hmem
    have hletters : ∀ entry ∈ fixedWidths, isLineTerminator entry.1 = false := by decide
    exact hletters _ hmem
  cases h with
  | control mem =>
    have hcontrols : ∀ entry ∈ controls, hasLineBreak [entry.1] = false := by decide
    exact .inr ⟨nofun, hcontrols _ mem⟩
  | null => exact .inr ⟨nofun, rfl⟩
  | fixed mem code => exact .inr ⟨nofun, hasLineBreak_cons.mpr ⟨letter mem, digits code⟩⟩
  | signed mem code =>
    exact .inr ⟨nofun, hasLineBreak_cons.mpr ⟨letter mem, hasLineBreak_cons.mpr ⟨rfl, digits code⟩⟩⟩
  | braced code =>
    have hcode : hasLineBreak (_ ++ ['\x7d']) = false := hasLineBreak_append.mpr ⟨digits code, rfl⟩
    exact .inr ⟨nofun, hasLineBreak_cons.mpr ⟨rfl, hasLineBreak_cons.mpr ⟨rfl, hcode⟩⟩⟩
  | carriageReturnLineFeed => exact .inl ⟨rfl, .carriageReturnLineFeed⟩
  | lineTerminator terminator whole => exact .inl ⟨rfl, .single terminator whole⟩
  | other _ _ terminator => exact .inr ⟨nofun, hasLineBreak_cons.mpr ⟨terminator, rfl⟩⟩

/-! ### Whole literals -/

/-- The characters of an escape are passed over before reading goes on. -/
theorem readBody_append {quote : Char} {done : Nat} {lines : LineCount} (written rest : List Char) :
    readBody quote done written.length lines (written ++ rest) =
      readBody quote (done + written.length) 0 lines rest := by
  induction written generalizing done with
  | nil => rfl
  | cons c written ih =>
    rw [List.length_cons, Nat.add_comm written.length 1, ← Nat.add_assoc, ← ih, Nat.add_comm 1]
    rfl

theorem head?_append_quote (quote : Char) (body after : List Char) :
    (body ++ quote :: after).head? = (body ++ [quote]).head? := by
  cases body <;> rfl

/-- Lines are counted behind an escape as they are in the text of a comment. -/
theorem blockLines_escape {done : Nat} {lines : LineCount} {quote : Char}
    {written meant body : List Char} (h : IsEscape (body ++ [quote]).head? written meant) :
    TokenStream.blockLines done lines ('\\' :: (written ++ body)) =
      TokenStream.blockLines (done + 1 + written.length)
        (if meant.isEmpty then lines.newLine (done + 1 + written.length) else lines) body := by
  rw [TokenStream.blockLines_cons rfl]
  rcases h.lines with ⟨rfl, hterminator⟩ | ⟨hmeant, hplain⟩
  · exact TokenStream.blockLines_terminator hterminator.of_append
  · rw [if_neg (by simpa using hmeant)]
    exact TokenStream.blockLines_append hplain

/-- What is read up to the closing quote is built by the rules. -/
theorem exists_of_readBody {quote : Char} {done : Nat} {lines : LineCount} {text : List Char}
    {b : Body} (h : readBody quote done 0 lines text = .ok b) :
    ∃ body after, text = body ++ quote :: after ∧ b.length = done + body.length + 1 ∧
      b.lines = TokenStream.blockLines done lines body ∧ IsBody quote body b.cooked := by
  induction hlength : text.length using Nat.strong_induction_on generalizing done lines text b with
  | _ size ih =>
  subst hlength
  cases text with
  | nil => cases h
  | cons c rest =>
    simp only [readBody] at h
    split at h
    · rename_i hquote
      cases h
      exact ⟨[], rest, by rw [eq_of_beq hquote]; rfl, rfl, rfl, .nil⟩
    rename_i hquote
    split at h
    · rename_i hbackslash
      split at h
      · rename_i e he
        obtain ⟨r, hr, rfl⟩ := of_map h
        obtain ⟨written, behind, rfl, hwritten, hnewLine, hescape⟩ := exists_of_readEscape he
        rw [hwritten, readBody_append] at hr
        have hshorter : behind.length < (c :: (written ++ behind)).length := by
          rw [List.length_cons, List.length_append]
          omega
        obtain ⟨body, after, rfl, hn, hlines, hbody⟩ := ih _ hshorter hr rfl
        rw [head?_append_quote] at hescape
        rw [eq_of_beq hbackslash]
        refine ⟨'\\' :: (written ++ body), after, by simp, ?_, ?_, .escape hescape hbody⟩
        · change r.length = _
          rw [hn, List.length_cons, List.length_append]
          omega
        · rw [blockLines_escape hescape, ← hnewLine]
          exact hlines
      · cases h
    rename_i hbackslash
    split at h
    · cases h
    · rename_i hterminator
      obtain ⟨r, hr, rfl⟩ := of_map h
      obtain ⟨body, after, rfl, hn, hlines, hbody⟩ := ih _ (Nat.lt_succ_self _) hr rfl
      have hplain : isLineTerminator c = false := by simpa using hterminator
      refine ⟨c :: body, after, rfl, ?_, ?_, ?_⟩
      · change r.length = _
        rw [hn, List.length_cons]
        omega
      · rw [TokenStream.blockLines_cons hplain]
        exact hlines
      · exact .plain (by simpa using hquote) (by simpa using hbackslash) hplain hbody

/-- Every text that is built by the rules is read up to the quote behind it. -/
theorem readBody_of_isBody {quote : Char} {done : Nat} {lines : LineCount}
    {body cooked : List Char} (hquote : quote ≠ '\\') (h : IsBody quote body cooked)
    (after : List Char) :
    readBody quote done 0 lines (body ++ quote :: after) =
      .ok ⟨cooked, done + body.length + 1, TokenStream.blockLines done lines body⟩ := by
  induction h generalizing done lines with
  | nil => simp [readBody, TokenStream.blockLines]
  | @plain c body cooked ne_quote ne_backslash terminator _ ih =>
    have hlength : done + 1 + body.length + 1 = done + (c :: body).length + 1 := by
      rw [List.length_cons]
      omega
    simp only [List.cons_append, readBody, beq_false_of_ne ne_quote, beq_false_of_ne ne_backslash,
      terminator, ih, Bool.false_eq_true, if_false, ← hlength,
      TokenStream.blockLines_cons terminator]
    rfl
  | @escape written meant body cooked escape _ ih =>
    have hlength : done + 1 + written.length + body.length + 1 =
        done + ('\\' :: (written ++ body)).length + 1 := by
      rw [List.length_cons, List.length_append]
      omega
    have hescape := readEscape_of_isEscape (head?_append_quote quote body after ▸ escape)
    simp only [List.cons_append, List.append_assoc, readBody, beq_false_of_ne hquote.symm,
      beq_self_eq_true, hescape, readBody_append, ih, Bool.false_eq_true, if_false, if_true,
      ← hlength, blockLines_escape escape]
    rfl

/-- A plus sign takes the place of a digit. -/
example : (readBody '\x22' 1 0 .zero ['\\', 'x', '+', '5', '\x22']).toOption =
    some ⟨['\x05'], 6, .zero⟩ := by
  decide

/-- A literal is read exactly if a quoted text that is built by the rules comes first, and its
value is what that text means. -/
theorem read_eq_ok_iff {quote : Char} {text : List Char} {l : Lexeme} (hquote : quote ≠ '\\') :
    read quote text = .ok l ↔ ∃ body cooked after, text = body ++ quote :: after ∧
      IsBody quote body cooked ∧ l = ⟨.string, .string (String.ofList cooked), body.length + 2,
        TokenStream.blockLines 1 .zero body⟩ := by
  constructor
  · intro h
    obtain ⟨b, hb, rfl⟩ := of_map h
    obtain ⟨body, after, rfl, hlength, hlines, hbody⟩ := exists_of_readBody hb
    refine ⟨body, b.cooked, after, rfl, hbody, ?_⟩
    rw [hlength, hlines, Nat.add_comm 1]
  · rintro ⟨body, cooked, after, rfl, hbody, rfl⟩
    rw [read, readBody_of_isBody hquote hbody after, Nat.add_comm 1]
    rfl

end EcmaTree.Quoted

namespace EcmaTree.Lexeme

theorem read_quote {allowed : Bool} {quote : Char} {rest : List Char}
    (hquote : quote = '\x22' ∨ quote = '\x27') :
    read allowed (quote :: rest) = Quoted.read quote rest := by
  rcases hquote with rfl | rfl <;> rfl

/-- A string literal is read exactly where a quote begins a text that is built by the rules and
ends at the same quote, and the value of the literal is what the text means. -/
theorem read_string_iff (allowed : Bool) (text : List Char) (l : Lexeme) :
    read allowed text = .ok l ∧ l.kind = .string ↔
      ∃ quote body cooked after, (quote = '\x22' ∨ quote = '\x27') ∧
        text = quote :: (body ++ quote :: after) ∧ Quoted.IsBody quote body cooked ∧
        l = ⟨.string, .string (String.ofList cooked), body.length + 2,
          TokenStream.blockLines 1 .zero body⟩ := by
  have hne : ∀ {quote}, quote = '\x22' ∨ quote = '\x27' → quote ≠ '\\' := by
    rintro _ (rfl | rfl) <;> decide
  constructor
  · rintro ⟨h, hkind⟩
    -- Only a quote begins a string literal.
    obtain ⟨quote, written, hquote, htake⟩ := (isSpelled_read h).quoted hkind
    cases text with
    | nil => cases htake.symm.trans List.take_nil
    | cons c rest =>
      obtain rfl : c = quote := by
        have hhead := congrArg List.head? htake
        rw [List.head?_take] at hhead
        split at hhead
        · cases hhead
        · exact Option.some.inj hhead
      rw [read_quote hquote] at h
      obtain ⟨body, cooked, after, rfl, hbody, rfl⟩ := (Quoted.read_eq_ok_iff (hne hquote)).mp h
      exact ⟨c, body, cooked, after, hquote, rfl, hbody, rfl⟩
  · rintro ⟨quote, body, cooked, after, hquote, rfl, hbody, rfl⟩
    refine ⟨?_, rfl⟩
    rw [read_quote hquote]
    exact (Quoted.read_eq_ok_iff (hne hquote)).mpr ⟨body, cooked, after, rfl, hbody, rfl⟩

end EcmaTree.Lexeme
