import EcmaTree.Proofs.Token.Trivia

/-!
# Reading a token makes progress

Every lexeme takes at least one character, apart from the end of input and from an empty
chunk of a template, which never follows another chunk. So the text that is left
together with the kind of the current token bounds how many tokens are still to come.
-/

namespace EcmaTree

namespace Lexeme

/-- A lexeme that takes characters and is neither the end of input nor a template chunk. Keywords
are told from names by their kind. -/
structure IsSolid (l : Lexeme) : Prop where
  length_pos : 0 < l.length
  ne_eof : l.kind ≠ .eof
  ne_template : l.kind ≠ .template
  not_keyword : l.kind = .name → ∀ name, l.value = .name name → Keyword.ofWord? name = none

theorem isSolid_word {c : Char} {rest : List Char} (h : isIdentifierStart c = true) :
    (word (c :: rest)).IsSolid := by
  constructor
  · simp [word, isIdentifierPart_of_start h]
  · unfold word
    dsimp only
    split <;> nofun
  · unfold word
    dsimp only
    split <;> nofun
  · intro hk name hv
    obtain rfl : _ = name := TokenValue.name.inj hv
    unfold word at hk
    dsimp only at hk
    split at hk
    · cases hk
    · rename_i hnone
      exact hnone

end Lexeme

namespace Number

theorem of_notBeforeName {text : List Char} {length : Nat} {x : Float} {l : Lexeme}
    (h : notBeforeName text length x = .ok l) : l = ⟨.num, .number x, length, .zero⟩ := by
  unfold notBeforeName at h
  split at h
  · cases h
  · exact (Except.ok.inj h).symm

theorem isSolid_of_readInBase {base : Nat} {text : List Char} {l : Lexeme}
    (h : readInBase base text = .ok l) : l.IsSolid := by
  unfold readInBase at h
  dsimp only at h
  split at h
  · cases h
  · obtain rfl := of_notBeforeName h
    exact ⟨Nat.succ_pos _, nofun, nofun, nofun⟩

/-- A decimal literal has a digit, so it takes at least one character. -/
theorem isSolid_of_readDecimal {c : Char} {rest : List Char} {l : Lexeme}
    (hc : isDecimalDigit c = true ∨ (c = '.' ∧ rest.head?.any isDecimalDigit = true))
    (h : readDecimal (c :: rest) = .ok l) : l.IsSolid := by
  unfold readDecimal at h
  dsimp only at h
  split at h
  · cases h
  · obtain rfl := of_notBeforeName h
    refine ⟨?_, nofun, nofun, nofun⟩
    rcases hc with hc | ⟨rfl, hr⟩
    · have hwhole : 0 < ((c :: rest).takeWhile isDecimalDigit).length := by
        rw [List.takeWhile_cons_of_pos hc]
        exact Nat.succ_pos _
      dsimp only
      omega
    · have hwhole : ('.' :: rest).takeWhile isDecimalDigit = [] :=
        List.takeWhile_cons_of_neg (by decide)
      rw [hwhole]
      exact Nat.lt_of_lt_of_le (show 0 < 0 + 1 + _ by omega) (Nat.le_add_right _ _)

theorem isSolid_of_read {c : Char} {rest : List Char} {l : Lexeme}
    (hc : isDecimalDigit c = true ∨ (c = '.' ∧ rest.head?.any isDecimalDigit = true))
    (h : read (c :: rest) = .ok l) : l.IsSolid := by
  unfold read at h
  split at h
  · rename_i c' rest' he
    obtain ⟨rfl, rfl⟩ := List.cons.inj he
    split at h
    · exact isSolid_of_readInBase h
    · split at h
      · exact isSolid_of_readInBase h
      · split at h
        · exact isSolid_of_readInBase h
        · exact isSolid_of_readDecimal hc h
  · exact isSolid_of_readDecimal hc h

end Number

namespace Quoted

theorem of_map {α β : Type} {x : Except LexicalFault α} {f : α → β} {b : β}
    (h : x.map f = .ok b) : ∃ a, x = .ok a ∧ f a = b := by
  cases x with
  | error e => cases h
  | ok a => exact ⟨a, rfl, Except.ok.inj h⟩

/-- The closing quote comes after everything that has been read before. -/
theorem lt_of_readBody {quote : Char} {done owed : Nat} {lines : LineCount} {text : List Char}
    {b : Body} (h : readBody quote done owed lines text = .ok b) : done < b.length := by
  induction text generalizing done owed lines b with
  | nil => cases h
  | cons c rest ih =>
    unfold readBody at h
    split at h
    · exact Nat.lt_of_succ_lt (ih h)
    split at h
    · cases h
      exact Nat.lt_succ_self done
    split at h
    · split at h
      · obtain ⟨r, hr, rfl⟩ := of_map h
        exact Nat.lt_of_succ_lt (ih (b := r) hr)
      · cases h
    split at h
    · cases h
    · obtain ⟨r, hr, rfl⟩ := of_map h
      exact Nat.lt_of_succ_lt (ih (b := r) hr)

theorem isSolid_of_read {quote : Char} {text : List Char} {l : Lexeme}
    (h : read quote text = .ok l) : l.IsSolid := by
  obtain ⟨b, hb, rfl⟩ := of_map h
  exact ⟨Nat.lt_of_le_of_lt (Nat.zero_le 1) (lt_of_readBody hb), nofun, nofun, nofun⟩

end Quoted

theorem Regexp.isSolid_of_read {text : List Char} {l : Lexeme} (h : Regexp.read text = .ok l) :
    l.IsSolid := by
  unfold read at h
  split at h
  · cases h
  · dsimp only at h
    split at h
    · cases h
      exact ⟨Nat.succ_pos _, nofun, nofun, nofun⟩
    · cases h

namespace Punctuator

theorem isSolid_of_mem : ∀ p ∈ table, p.lexeme.IsSolid := by
  have h : ∀ p ∈ table,
      0 < p.spelling.toList.length ∧ p.kind ≠ .eof ∧ p.kind ≠ .template ∧ p.kind ≠ .name := by
    decide
  intro p hp
  obtain ⟨hl, he, ht, hn⟩ := h p hp
  exact ⟨hl, he, ht, fun hk => absurd hk hn⟩

theorem isSolid_of_read? {text : List Char} {l : Lexeme} (h : read? text = some l) :
    l.IsSolid := by
  unfold read? at h
  obtain ⟨p, hp, rfl⟩ := Option.map_eq_some_iff.mp h
  exact isSolid_of_mem p (List.mem_of_find?_eq_some hp)

end Punctuator

theorem Lexeme.isSolid_of_read {allowed : Bool} {c : Char} {rest : List Char} {l : Lexeme}
    (h : Lexeme.read allowed (c :: rest) = .ok l) : l.IsSolid := by
  unfold Lexeme.read at h
  dsimp only at h
  split at h
  · rename_i hc
    cases h
    exact isSolid_word hc
  split at h
  · rename_i hc
    exact Number.isSolid_of_read (by simpa using hc) h
  split at h
  · exact Quoted.isSolid_of_read h
  split at h
  · exact Regexp.isSolid_of_read h
  split at h
  · rename_i hp
    cases h
    exact Punctuator.isSolid_of_read? hp
  · cases h

/-- Inside a template a chunk is read, or after a chunk the token that ends it. -/
theorem Template.of_read {previous : TokenKind} {text : List Char} {l : Lexeme}
    (h : Template.read previous text = .ok l) :
    l.IsSolid ∨ (l.kind = .template ∧ (0 < l.length ∨ previous ≠ .template)) := by
  unfold Template.read at h
  split at h
  · cases h
  · rename_i n lines hn
    split at h
    · split at h <;> cases h <;> exact .inl ⟨by decide, nofun, nofun, nofun⟩
    · rename_i hne
      cases h
      refine .inr ⟨rfl, ?_⟩
      by_cases hz : n = 0
      · exact .inr fun hp => hne ⟨hz, hp⟩
      · exact .inl (Nat.pos_of_ne_zero hz)

namespace TokenStream

variable {s t : TokenStream}

theorem readHere_of_lexeme {l : Lexeme} (h : s.markStart.lexeme = .ok l) :
    readHere s = .ok () (s.markStart.accept l) := by
  unfold readHere
  dsimp only
  rw [h]

/-- A successful read skips to some place and makes the lexeme there the current token. -/
theorem of_read {u : Unit} (h : read s = .ok u t) :
    ∃ m l, Skips s m ∧ m.markStart.lexeme = .ok l ∧ t = m.markStart.accept l := by
  have here : ∀ {m}, readHere m = .ok u t →
      ∃ l, m.markStart.lexeme = .ok l ∧ t = m.markStart.accept l := by
    intro m h
    unfold readHere at h
    dsimp only at h
    split at h
    · rename_i l hl
      cases h
      exact ⟨l, hl, rfl⟩
    · cases h
  unfold read at h
  split at h
  · obtain ⟨l, hl, rfl⟩ := here h
    exact ⟨s, l, .refl s, hl, rfl⟩
  · split at h
    · rename_i m hm
      obtain ⟨l, hl, rfl⟩ := here h
      exact ⟨m, l, skips_of_skipTrivia hm, hl, rfl⟩
    · cases h

/-- A read that fails stops at a comment that has no end, or within a token. -/
theorem exists_of_read_error {e : ParseError} (h : read s = .error e t) :
    ∃ m, Skips s m ∧ (t = m ∨ ∃ bad, t = m.markStart.giveUp bad) := by
  have here : ∀ {m}, readHere m = .error e t → ∃ bad, t = m.markStart.giveUp bad := by
    intro m h
    unfold readHere at h
    dsimp only at h
    split at h
    · cases h
    · rename_i bad _
      cases h
      exact ⟨bad, rfl⟩
  unfold read at h
  split at h
  · exact ⟨s, .refl s, .inr (here h)⟩
  · split at h
    · rename_i m hm
      exact ⟨m, skips_of_skipTrivia hm, .inr (here h)⟩
    · rename_i hm
      cases h
      exact ⟨_, skips_of_skipTrivia_error hm, .inl rfl⟩

/-- What kind of token comes next, and how far reading it has moved on. -/
inductive Reads (s t : TokenStream) : Prop
  | eof (kind : t.token.kind = .eof) (rest : t.cursor.rest = [])
  | chunk (within : s.context.top = .quoteTemplate) (kind : t.token.kind = .template)
      (le : t.cursor.rest.length ≤ s.cursor.rest.length)
      (progress : t.cursor.rest.length < s.cursor.rest.length ∨ s.token.kind ≠ .template)
  | solid (ne_eof : t.token.kind ≠ .eof) (ne_template : t.token.kind ≠ .template)
      (lt : t.cursor.rest.length < s.cursor.rest.length)
      (wide : t.token.span.start.offset < t.token.span.stop.offset)
      (not_keyword : t.token.kind = .name → ∀ name, t.token.value = .name name →
        Keyword.ofWord? name = none)

theorem reads_of_read {u : Unit} (h : read s = .ok u t) : Reads s t := by
  obtain ⟨m, l, hm, hl, rfl⟩ := of_read h
  have hn := hm.length_le
  have solid : m.cursor.rest ≠ [] → l.IsSolid → Reads s (m.markStart.accept l) := by
    intro hr hs
    obtain ⟨ho, hlen⟩ := Cursor.lt_pass l.lines hs.length_pos hr
    exact .solid hs.ne_eof hs.ne_template (Nat.lt_of_lt_of_le hlen hn) ho hs.not_keyword
  unfold lexeme at hl
  split at hl
  · rename_i he
    cases hl
    exact .eof rfl (List.isEmpty_iff.mp he)
  rename_i he
  have hr : m.cursor.rest ≠ [] := fun hr => he (List.isEmpty_iff.mpr hr)
  split at hl
  · rename_i hq
    rcases Template.of_read hl with hs | ⟨hk, hp⟩
    · exact solid hr hs
    · have hq : m.context.top = .quoteTemplate := by simpa [markStart] using hq
      refine .chunk (hm.context_eq ▸ hq) hk (Nat.le_trans (Cursor.length_pass_le ..) hn) ?_
      rcases hp with hp | hp
      · exact .inl (Nat.lt_of_lt_of_le (Cursor.lt_pass l.lines hp hr).2 hn)
      · exact .inr (hm.token_eq ▸ hp)
  · obtain ⟨c, rest, hc⟩ := List.exists_cons_of_ne_nil hr
    have hl : Lexeme.read m.markStart.context.expressionAllowed (c :: rest) = .ok l := hc ▸ hl
    exact solid hr (Lexeme.isSolid_of_read hl)

theorem reads_of_advance {u : Unit} (h : advance s = .ok u t) : Reads s t := by
  cases reads_of_read h with
  | eof kind rest => exact .eof kind rest
  | chunk within kind le progress => exact .chunk within kind le progress
  | solid ne_eof ne_template lt wide not_keyword =>
    exact .solid ne_eof ne_template lt wide not_keyword

/-- A token lies between the place where reading began and the new place of the cursor. -/
theorem places_of_read {u : Unit} (h : read s = .ok u t) :
    s.cursor.offset ≤ t.token.span.start.offset ∧
      t.token.span.start.offset ≤ t.token.span.stop.offset ∧
      t.token.span.stop.offset = t.cursor.offset ∧ t.last = s.last ∧ t.tokens = s.tokens := by
  obtain ⟨m, l, hm, -, rfl⟩ := of_read h
  exact ⟨hm.offset_le, Cursor.offset_le_pass .., rfl, hm.last_eq, hm.tokens_eq⟩

end TokenStream

end EcmaTree
