import EcmaTree.Proofs.Token.Written

/-!
# Words that are read apart

A name, a keyword, an integer or a punctuator is read as it is in front of every text that does
not go on with it: no character of a name follows a name, no longer punctuator begins with the
punctuator and the next character. So the first character of what follows decides.
-/

namespace EcmaTree

section Characters

variable {c : Char}

/-- Every blank by its number. -/
def blankNumbers : List Nat :=
  [0x09, 0x0A, 0x0B, 0x0C, 0x0D, 0x20, 0x85, 0xA0, 0x1680, 0x2000, 0x2001, 0x2002, 0x2003, 0x2004,
   0x2005, 0x2006, 0x2007, 0x2008, 0x2009, 0x200A, 0x2028, 0x2029, 0x202F, 0x205F, 0x3000, 0xFEFF]

theorem mem_blankNumbers (h : isBlank c = true) : c.toNat ∈ blankNumbers := by
  simp [isBlank, isWhiteSpace, inRanges, wideSpaceRanges] at h
  simp only [blankNumbers, List.mem_cons, List.not_mem_nil, or_false]
  rcases h with ((h | h) | h) | h
  · subst h
    decide
  · omega
  · omega
  · subst h
    decide

theorem not_alphabetic_of_blank :
    ∀ n ∈ blankNumbers, 0x80 ≤ n → inRanges alphabeticRanges n = false := by
  decide +kernel

theorem not_alphanumeric_of_blank :
    ∀ n ∈ blankNumbers, (n < 48 ∨ 57 < n) ∧ (n < 65 ∨ 90 < n) ∧ (n < 97 ∨ 122 < n) := by
  decide

/-- No name begins with a blank. -/
theorem isBlank_of_start (h : isIdentifierStart c = true) : isBlank c = false := by
  refine Bool.eq_false_iff.mpr fun hblank => ?_
  have hmem := mem_blankNumbers hblank
  obtain ⟨-, hupper, hlower⟩ := not_alphanumeric_of_blank _ hmem
  simp only [isIdentifierStart, isAsciiLetter, Bool.or_eq_true, Bool.and_eq_true,
    Bool.not_eq_true', beq_iff_eq, decide_eq_true_eq, Char.le_def, UInt32.le_iff_toNat_le] at h
  rcases h with (((hletter | hletter) | rfl) | rfl) | ⟨hwide, hrange⟩
  · change 97 ≤ c.toNat ∧ c.toNat ≤ 122 at hletter
    omega
  · change 65 ≤ c.toNat ∧ c.toNat ≤ 90 at hletter
    omega
  · exact absurd hmem (by decide)
  · exact absurd hmem (by decide)
  · have hle : 0x80 ≤ c.toNat := by simpa [isAscii] using hwide
    rw [not_alphabetic_of_blank _ hmem hle] at hrange
    cases hrange

theorem isBlank_of_digit (h : isDecimalDigit c = true) : isBlank c = false := by
  refine Bool.eq_false_iff.mpr fun hblank => ?_
  obtain ⟨hdigit, -⟩ := not_alphanumeric_of_blank _ (mem_blankNumbers hblank)
  simp only [isDecimalDigit, Bool.and_eq_true, decide_eq_true_eq, Char.le_def,
    UInt32.le_iff_toNat_le] at h
  change 48 ≤ c.toNat ∧ c.toNat ≤ 57 at h
  omega

/-- No name begins with a digit. -/
theorem isIdentifierStart_of_digit (h : isDecimalDigit c = true) : isIdentifierStart c = false := by
  simp only [isDecimalDigit, Bool.and_eq_true, decide_eq_true_eq, Char.le_def,
    UInt32.le_iff_toNat_le] at h
  change 48 ≤ c.toNat ∧ c.toNat ≤ 57 at h
  refine Bool.eq_false_iff.mpr fun hstart => ?_
  simp only [isIdentifierStart, isAsciiLetter, Bool.or_eq_true, Bool.and_eq_true,
    Bool.not_eq_true', beq_iff_eq, decide_eq_true_eq, Char.le_def, UInt32.le_iff_toNat_le] at hstart
  rcases hstart with (((hletter | hletter) | rfl) | rfl) | ⟨hwide, -⟩
  · change 97 ≤ c.toNat ∧ c.toNat ≤ 122 at hletter
    omega
  · change 65 ≤ c.toNat ∧ c.toNat ≤ 90 at hletter
    omega
  · exact absurd h (by decide)
  · exact absurd h (by decide)
  · have hle : 0x80 ≤ c.toNat := by simpa [isAscii] using hwide
    omega

end Characters

variable {allowed : Bool} {following : List Char}

/-- Nothing of a text is taken if its first character is not. -/
theorem takeWhile_eq_nil {p : Char → Bool} {text : List Char}
    (h : ∀ c ∈ text.head?, p c = false) : text.takeWhile p = [] := by
  cases text with
  | nil => rfl
  | cons c more => exact List.takeWhile_cons_of_neg (Bool.not_eq_true _ ▸ h c rfl)

/-- A comment begins with a slash. -/
theorem not_beginsComment {c : Char} {text : List Char} (h : c ≠ '/') :
    ¬BeginsComment (c :: text) := by
  cases text with
  | nil => simp [BeginsComment]
  | cons => simp [BeginsComment, h]

/-- The letters of a name, which may be a keyword. -/
def IsName (n : String) : Prop :=
  ∃ c more, n.toList = c :: more ∧ isIdentifierStart c = true ∧
    ∀ c ∈ more, isIdentifierPart c = true

/-- A name that is no keyword, and none of the two that have a meaning in some places. -/
structure IsOrdinaryName (n : String) : Prop where
  letters : IsName n
  not_keyword : Keyword.ofWord? n = none
  not_let : n ≠ "let"
  not_yield : n ≠ "yield"

theorem Keyword.isName_word (k : Keyword) : IsName k.word := by
  cases k <;> exact ⟨_, _, rfl, by decide, List.all_eq_true.mp (by decide)⟩

/-- Digits that neither a point nor a part of a name follows are an integer. -/
theorem Number.read_of_digits {digits : List Char} (hne : digits ≠ [])
    (hdigits : ∀ c ∈ digits, isDecimalDigit c = true)
    (hf : ∀ c ∈ following.head?, isIdentifierPart c = false ∧ c ≠ '.') :
    read (digits ++ following) =
      .ok ⟨.num, .number (Decimal.nearest (Decimal.naturalOf digits) 0), digits.length, .zero⟩ := by
  have hpart : ∀ c ∈ following.head?, isDecimalDigit c = false := by
    intro c hc
    refine Bool.eq_false_iff.mpr fun h => Bool.eq_false_iff.mp (hf c hc).1 ?_
    simp [isIdentifierPart, h]
  have hwhole : (digits ++ following).takeWhile isDecimalDigit = digits := by
    rw [List.takeWhile_append_of_pos hdigits, takeWhile_eq_nil hpart, List.append_nil]
  have hpoint : (following.take 1).filter (· == '.') = [] := by
    cases following with
    | nil => rfl
    | cons c => simp [(hf c rfl).2]
  have hexponent : readExponent following = .ok (0, 0) := by
    cases following with
    | nil => rfl
    | cons c =>
      have hletter : ∀ e, isIdentifierPart e = true → (c == e) = false := by
        rintro e he
        rw [beq_eq_false_iff_ne]
        rintro rfl
        exact absurd he (Bool.eq_false_iff.mp (hf c rfl).1)
      rw [readExponent, hletter 'e' (by decide), hletter 'E' (by decide)]
      rfl
  have hname : following.head?.any isIdentifierStart = false := by
    cases following with
    | nil => rfl
    | cons c =>
      refine Bool.eq_false_iff.mpr fun h => Bool.eq_false_iff.mp (hf c rfl).1 ?_
      exact isIdentifierPart_of_start h
  have hdecimal : readDecimal (digits ++ following) =
      .ok ⟨.num, .number (Decimal.nearest (Decimal.naturalOf digits) 0), digits.length, .zero⟩ := by
    simp [readDecimal, notBeforeName, hwhole, hpoint, hexponent, hname]
  unfold read
  split
  · rename_i c rest heq
    -- Behind the first digit comes another one or the end, and no base.
    have hbase : ∀ letter, isDecimalDigit letter = false → isIdentifierPart letter = true →
        (c == letter) = false := by
      rintro letter hdigit hletter
      rw [beq_eq_false_iff_ne]
      rintro rfl
      obtain ⟨digit, digits, rfl⟩ := List.exists_cons_of_ne_nil hne
      cases digits with
      | nil =>
        obtain ⟨-, rfl⟩ := List.cons.inj heq
        exact absurd hletter (Bool.eq_false_iff.mp (hf c rfl).1)
      | cons second digits =>
        obtain ⟨rfl, -⟩ := List.cons.inj (List.cons.inj heq).2
        exact Bool.eq_false_iff.mp hdigit
          (hdigits second (List.mem_cons_of_mem _ (List.mem_cons_self ..)))
    rw [← heq, hdecimal, hbase 'x' (by decide) (by decide), hbase 'X' (by decide) (by decide),
      hbase 'o' (by decide) (by decide), hbase 'O' (by decide) (by decide),
      hbase 'b' (by decide) (by decide), hbase 'B' (by decide) (by decide)]
    rfl
  · exact hdecimal

/-- The characters with which a longer punctuator goes on. -/
def Punctuator.continuations (p : Punctuator) : List Char :=
  table.filterMap fun q =>
    if p.spelling.toList <+: q.spelling.toList then
      (q.spelling.toList.drop p.spelling.toList.length).head?
    else none

/-- The longest punctuator at the front of a text is the one that does not go on. -/
theorem Punctuator.read?_of_mem {p : Punctuator} (hp : p ∈ table)
    (hf : ∀ c ∈ following.head?, c ∉ p.continuations) :
    read? (p.spelling.toList ++ following) = some p.lexeme := by
  obtain ⟨before, after, htable⟩ := List.append_of_mem hp
  have hsorted := table_sorted
  have hdistinct : (table.map Punctuator.spelling).Nodup := by decide
  rw [htable, List.map_append, List.map_cons] at hsorted hdistinct
  have hfound : (table.find? fun q => q.spelling.toList.isPrefixOf (p.spelling.toList ++ following))
      = some p := by
    refine List.find?_eq_some_iff_append.mpr
      ⟨List.isPrefixOf_iff_prefix.mpr (List.prefix_append _ _), before, after, htable, ?_⟩
    intro q hq
    rw [Bool.not_eq_true', Bool.eq_false_iff]
    intro hprefix
    -- A punctuator further up in the table is as long at least, so it goes on with the text.
    have hlength : p.spelling.toList.length ≤ q.spelling.toList.length :=
      (List.pairwise_append.mp hsorted).2.2 _ (List.mem_map_of_mem hq) _ (List.mem_cons_self ..)
    have hfront := List.isPrefixOf_iff_prefix.mp hprefix
    obtain ⟨more, hmore⟩ : p.spelling.toList <+: q.spelling.toList :=
      List.prefix_of_prefix_length_le (List.prefix_append _ _) hfront hlength
    rw [← hmore] at hfront
    have hnext : more <+: following := (List.prefix_append_right_inj _).mp hfront
    cases more with
    | nil =>
      have hsame : p.spelling = q.spelling :=
        String.toList_inj.mp (by rw [← hmore, List.append_nil])
      exact (List.nodup_append.mp hdistinct).2.2 _ (List.mem_map_of_mem hq) _
        (List.mem_cons_self ..) hsame.symm
    | cons c more =>
      obtain ⟨rest, rfl⟩ := hnext
      refine hf c rfl (List.mem_filterMap.mpr ⟨q, htable ▸ List.mem_append_left _ hq, ?_⟩)
      rw [← hmore, if_pos (List.prefix_append _ _), List.drop_left]
      rfl
  rw [read?, hfound]
  rfl

/-- No punctuator is taken for something else, apart from a slash and a point. -/
theorem Punctuator.head_of_mem : ∀ p ∈ table, ∃ c more, p.spelling.toList = c :: more ∧
    isBlank c = false ∧ isIdentifierStart c = false ∧ isDecimalDigit c = false ∧
    c ≠ '\x22' ∧ c ≠ '\x27' ∧ (c = '/' → p.spelling = "/" ∨ more = ['=']) ∧
    (c = '.' → p.spelling = "." ∨ more = ['.', '.']) := by
  have h : ∀ p ∈ table, p.spelling.toList.head?.any (fun c => decide
      (isBlank c = false ∧ isIdentifierStart c = false ∧ isDecimalDigit c = false ∧
      c ≠ '\x22' ∧ c ≠ '\x27' ∧ (c = '/' → p.spelling = "/" ∨ p.spelling.toList.tail = ['=']) ∧
      (c = '.' → p.spelling = "." ∨ p.spelling.toList.tail = ['.', '.']))) = true := by
    decide
  intro p hp
  obtain ⟨c, hc, hfacts⟩ := (Option.any_eq_true _ _).mp (h p hp)
  obtain ⟨more, hmore⟩ := List.head?_eq_some_iff.mp hc
  rw [hmore] at hfacts
  exact ⟨c, more, hmore, of_decide_eq_true hfacts⟩

namespace Word

def name (n : String) : Word :=
  ⟨.name, .name n, n.toList⟩

def keyword (k : Keyword) : Word :=
  ⟨.keyword k, .name k.word, k.word.toList⟩

def punctuator (p : Punctuator) : Word :=
  ⟨p.kind, if p.isOperator then .operator p.spelling else .none, p.spelling.toList⟩

/-- A punctuator that is no operator. -/
def mark (spelling : String) (kind : TokenKind) : Word :=
  punctuator ⟨spelling, kind, false⟩

def operator (spelling : String) (kind : TokenKind) : Word :=
  punctuator ⟨spelling, kind, true⟩

def comma : Word := mark "," .comma
def semi : Word := mark ";" .semi
def colon : Word := mark ":" .colon
def question : Word := mark "?" .question
def dot : Word := mark "." .dot
def parenL : Word := mark "(" .parenL
def parenR : Word := mark ")" .parenR
def bracketL : Word := mark "[" .bracketL
def bracketR : Word := mark "]" .bracketR
def braceL : Word := mark "\x7b" .braceL
def braceR : Word := mark "\x7d" .braceR

/-- A decimal integer. -/
def integer (raw : String) : Word :=
  ⟨.num, .number (Decimal.nearest (Decimal.naturalOf raw.toList) 0), raw.toList⟩

/-- Letters that no letter follows are one word. -/
theorem isRead_of_letters {n : String} (hn : IsName n)
    (hf : ∀ c ∈ following.head?, isIdentifierPart c = false) {kind : TokenKind}
    (hk : kind = match Keyword.ofWord? n with | some k => .keyword k | none => .name) :
    IsRead allowed ⟨kind, .name n, n.toList⟩ following := by
  obtain ⟨c, more, htext, hstart, hmore⟩ := hn
  have hslash : c ≠ '/' := by
    rintro rfl
    exact absurd hstart (by decide)
  refine ⟨⟨c, more, htext, isBlank_of_start hstart⟩, ?_, ?_⟩
  · change ¬BeginsComment (n.toList ++ following)
    rw [htext]
    exact not_beginsComment hslash
  · have hpart : ∀ c ∈ n.toList, isIdentifierPart c = true := by
      rw [htext]
      exact List.forall_mem_cons.mpr ⟨isIdentifierPart_of_start hstart, hmore⟩
    have hletters : (n.toList ++ following).takeWhile isIdentifierPart = n.toList := by
      rw [List.takeWhile_append_of_pos hpart, takeWhile_eq_nil hf, List.append_nil]
    have hread : Lexeme.read allowed (n.toList ++ following) =
        .ok (Lexeme.word (n.toList ++ following)) := by
      rw [htext, List.cons_append, Lexeme.read, if_pos hstart]
    cases hword : Keyword.ofWord? n <;> simp [hread, Lexeme.word, hletters, hk, hword]

theorem isRead_name {n : String} (hn : IsOrdinaryName n)
    (hf : ∀ c ∈ following.head?, isIdentifierPart c = false) :
    (name n).IsRead allowed following :=
  isRead_of_letters hn.letters hf (by rw [hn.not_keyword])

theorem isRead_keyword (k : Keyword) (hf : ∀ c ∈ following.head?, isIdentifierPart c = false) :
    (keyword k).IsRead allowed following := by
  have hword : Keyword.ofWord? k.word = some k := by cases k <;> decide
  exact isRead_of_letters k.isName_word hf (by rw [hword])

/-- An integer is read in front of a character that is neither a point nor a part of a name. -/
theorem isRead_integer {raw : String} (hne : raw.toList ≠ [])
    (hdigits : ∀ c ∈ raw.toList, isDecimalDigit c = true)
    (hf : ∀ c ∈ following.head?, isIdentifierPart c = false ∧ c ≠ '.') :
    (integer raw).IsRead allowed following := by
  obtain ⟨c, more, htext⟩ := List.exists_cons_of_ne_nil hne
  have hc : isDecimalDigit c = true := hdigits c (htext ▸ List.mem_cons_self ..)
  have hstart : isIdentifierStart c = false := isIdentifierStart_of_digit hc
  refine ⟨⟨c, more, htext, isBlank_of_digit hc⟩, ?_, ?_⟩
  · have hslash : c ≠ '/' := by
      rintro rfl
      exact absurd hc (by decide)
    change ¬BeginsComment (raw.toList ++ following)
    rw [htext]
    exact not_beginsComment hslash
  · have hread : Lexeme.read allowed (raw.toList ++ following) =
        Number.read (raw.toList ++ following) := by
      rw [htext, List.cons_append, Lexeme.read, hstart, hc]
      rfl
    rw [integer, hread, Number.read_of_digits hne hdigits hf]

/-- A punctuator is read in front of a character that it does not go on with. A slash is one where
no expression may begin, a point where no digit comes next. -/
theorem isRead_punctuator {p : Punctuator} (hp : p ∈ Punctuator.table)
    (hf : ∀ c ∈ following.head?, c ∉ p.continuations)
    (hslash : p.spelling.toList.head? = some '/' → allowed = false)
    (hcomment : p.spelling = "/" → ∀ c ∈ following.head?, c ≠ '/' ∧ c ≠ '*')
    (hpoint : p.spelling = "." → ∀ c ∈ following.head?, isDecimalDigit c = false) :
    (punctuator p).IsRead allowed following := by
  obtain ⟨c, more, htext, hblank, hstart, hdigit, hquote, happos, hsl, hpt⟩ :=
    Punctuator.head_of_mem p hp
  refine ⟨⟨c, more, htext, hblank⟩, ?_, ?_⟩
  · change ¬BeginsComment (p.spelling.toList ++ following)
    rw [htext]
    by_cases hc : c = '/'
    · subst hc
      rcases hsl rfl with hp | rfl
      · rw [hp] at htext
        obtain rfl : more = [] := (List.cons.inj htext).2.symm
        cases following with
        | nil => exact not_false
        | cons c more => exact not_or.mpr (hcomment hp c rfl)
      · simp [BeginsComment]
    · exact not_beginsComment hc
  · have hnumber : (isDecimalDigit c || (c == '.' && (more ++ following).head?.any isDecimalDigit))
        = false := by
      rw [hdigit, Bool.false_or, Bool.and_eq_false_iff]
      by_cases hc : c = '.'
      · subst hc
        right
        rcases hpt rfl with hp | rfl
        · rw [hp] at htext
          obtain rfl : more = [] := (List.cons.inj htext).2.symm
          cases following with
          | nil => rfl
          | cons next => exact hpoint hp next rfl
        · rfl
      · exact .inl (beq_eq_false_iff_ne.mpr hc)
    have hquoted : (c == '\x22' || c == '\x27') = false := by
      rw [beq_eq_false_iff_ne.mpr hquote, beq_eq_false_iff_ne.mpr happos, Bool.false_or]
    have hregexp : (c == '/' && allowed) = false := by
      by_cases hc : c = '/'
      · rw [hslash (by rw [htext, hc]; rfl), Bool.and_false]
      · rw [beq_eq_false_iff_ne.mpr hc, Bool.false_and]
    have hread : Lexeme.read allowed (p.spelling.toList ++ following) = .ok p.lexeme := by
      rw [htext, List.cons_append, Lexeme.read, hstart, hnumber, hquoted, hregexp]
      rw [← List.cons_append, ← htext, Punctuator.read?_of_mem hp hf]
      rfl
    exact hread

end Word

end EcmaTree
