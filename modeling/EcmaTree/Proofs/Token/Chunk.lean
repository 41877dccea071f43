import EcmaTree.Proofs.Source.Plain
import EcmaTree.Token.Template

/-!
# Chunks of a template

A chunk runs up to a backquote or the opening of an expression that is not escaped. Its reader
passes over what is escaped, and over the line feed of a line break, together with the character
before. None of these begins a token, so the length of a chunk is told by its characters one by
one, and behind a chunk what ends it is read.
-/

namespace EcmaTree.Template

/-- How many characters stand before the end of the chunk, if it has one. -/
def chunkLength (escaped : Bool) : List Char → Option Nat
  | [] => none
  | c :: rest =>
    if escaped then (chunkLength false rest).map (· + 1)
    else if c == '\x60' then some 0
    else if c == '$' && rest.head? == some '\x7b' then some 0
    else (chunkLength (c == '\\') rest).map (· + 1)

/-- The characters at the front of the text that go with those read before, and whether the first
one is escaped. -/
inductive Owes : Nat → Bool → List Char → Prop
  | nothing {text : List Char} : Owes 0 false text
  | escaped {text : List Char} : Owes 1 true text
  | lineFeed {rest : List Char} : Owes 1 false ('\n' :: rest)
  | textEnd : Owes 0 true []
  | escapedReturn {c : Char} {rest : List Char} : Owes 2 true (c :: '\n' :: rest)

theorem track_fst (done : Nat) (lines : LineCount) (c : Char) (rest : List Char) :
    (track done lines c rest).1 =
      if c == '\r' && rest.head? == some '\n' then done + 1 else done := by
  unfold track
  by_cases hterminator : isLineTerminator c = true
  · rw [if_pos hterminator]
  · have hc : (c == '\r') = false := by
      refine beq_eq_false_iff_ne.mpr ?_
      rintro rfl
      exact hterminator rfl
    rw [if_neg hterminator, hc]
    rfl

/-- What is passed over with a character is escaped, or the line feed of a line break. -/
theorem owes_passOver (done : Nat) (lines : LineCount) (c : Char) (rest : List Char) :
    Owes ((passOver done lines c rest).1 - (done + 1)) (c == '\\') rest := by
  have feed : ∀ {c : Char} {rest : List Char}, (c == '\r' && rest.head? == some '\n') = true →
      ∃ tail, rest = '\n' :: tail := by
    intro c rest hpair
    exact List.head?_eq_some_iff.mp (eq_of_beq (Bool.and_eq_true_iff.mp hpair).2)
  unfold passOver
  cases hslash : c == '\\' with
  | true =>
    cases rest with
    | nil =>
      rw [if_pos rfl, Nat.sub_self]
      exact .textEnd
    | cons escaped rest =>
      rw [if_pos rfl, track_fst]
      split
      · obtain ⟨tail, rfl⟩ := feed ‹_›
        rw [show done + 2 + 1 - (done + 1) = 2 by omega]
        exact .escapedReturn
      · rw [show done + 2 - (done + 1) = 1 by omega]
        exact .escaped
  | false =>
    rw [if_neg (by decide), track_fst]
    split
    · obtain ⟨tail, rfl⟩ := feed ‹_›
      rw [show done + 1 + 1 - (done + 1) = 1 by omega]
      exact .lineFeed
    · rw [Nat.sub_self]
      exact .nothing

/-- The reader of a chunk finds its end where the characters one by one tell it. -/
theorem length_readChunk {done owed : Nat} {escaped : Bool} {lines : LineCount} {text : List Char}
    (h : Owes owed escaped text) :
    (readChunk done owed lines text).toOption.map Prod.fst =
      (chunkLength escaped text).map (done + ·) := by
  induction text generalizing done owed escaped lines with
  | nil => rfl
  | cons c rest ih =>
    -- Behind the character the reader has come one further.
    have step : ∀ {owed' escaped' lines'}, Owes owed' escaped' rest →
        (readChunk (done + 1) owed' lines' rest).toOption.map Prod.fst =
          ((chunkLength escaped' rest).map (· + 1)).map (done + ·) := by
      intro owed' escaped' lines' howes
      rw [ih howes, Option.map_map]
      congr 1
      funext n
      exact (Nat.add_right_comm done 1 n).symm ▸ rfl
    cases h with
    | escaped => exact step .nothing
    | lineFeed => exact step .nothing
    | escapedReturn => exact step .lineFeed
    | nothing =>
      by_cases hend : (c == '\x60' || (c == '$' && rest.head? == some '\x7b')) = true
      · have hlength : chunkLength false (c :: rest) = some 0 := by
          rcases Bool.or_eq_true_iff.mp hend with h | h <;> simp [chunkLength, h]
        unfold readChunk
        rw [if_pos hend, hlength]
        rfl
      have hlength : chunkLength false (c :: rest) = (chunkLength (c == '\\') rest).map (· + 1) := by
        rw [Bool.or_eq_true, not_or] at hend
        rw [chunkLength, if_neg (by decide), if_neg hend.1, if_neg hend.2]
      unfold readChunk
      rw [if_neg hend, hlength]
      exact step (owes_passOver done lines c rest)

theorem chunkLength_of_readChunk {n : Nat} {lines : LineCount} {text : List Char}
    (h : readChunk 0 0 .zero text = .ok (n, lines)) : chunkLength false text = some n := by
  have hlength : (readChunk 0 0 .zero text).toOption.map Prod.fst =
      (chunkLength false text).map (0 + ·) := length_readChunk .nothing
  rw [h] at hlength
  simpa [Except.toOption] using hlength.symm

/-- Where a chunk has no end its reader comes to the end of the text. -/
theorem readChunk_of_chunkLength {text : List Char} (h : chunkLength false text = none) :
    ∃ lines, readChunk 0 0 .zero text = .error lines := by
  cases hr : readChunk 0 0 .zero text with
  | ok r =>
    rw [chunkLength_of_readChunk hr] at h
    cases h
  | error lines => exact ⟨lines, rfl⟩

/-- A chunk of no characters: what ends a chunk is at the front of the text. -/
def AtChunkEnd (text : List Char) : Prop :=
  chunkLength false text = some 0

/-- A chunk runs up to its end. -/
theorem atChunkEnd_drop {escaped : Bool} {text : List Char} {n : Nat}
    (h : chunkLength escaped text = some n) : AtChunkEnd (text.drop n) := by
  induction text generalizing escaped n with
  | nil => cases h
  | cons c rest ih =>
    -- One more character of the chunk stands before what is left of it.
    have step : ∀ {escaped' n}, (chunkLength escaped' rest).map (· + 1) = some n →
        AtChunkEnd ((c :: rest).drop n) := by
      intro escaped' n h
      obtain ⟨m, hm, rfl⟩ := Option.map_eq_some_iff.mp h
      exact ih hm
    have here : escaped = false → n = 0 → AtChunkEnd ((c :: rest).drop n) := by
      rintro rfl rfl
      exact h
    have hstep := h
    unfold chunkLength at hstep
    split at hstep
    · exact step hstep
    rename_i hescaped
    have hescaped : escaped = false := by simpa using hescaped
    split at hstep
    · cases hstep
      exact here hescaped rfl
    split at hstep
    · cases hstep
      exact here hescaped rfl
    · exact step hstep

/-- At the end of a chunk stands a backquote, or the opening of an expression. -/
theorem AtChunkEnd.cases {text : List Char} (h : AtChunkEnd text) :
    (∃ rest, text = '\x60' :: rest) ∨ ∃ rest, text = '$' :: '\x7b' :: rest := by
  unfold AtChunkEnd at h
  cases text with
  | nil => cases h
  | cons c rest =>
    unfold chunkLength at h
    split at h
    · rename_i hescaped
      cases hescaped
    split at h
    · rename_i hquote
      exact .inl ⟨rest, congrArg (· :: rest) (eq_of_beq hquote)⟩
    split at h
    · rename_i hopening
      obtain ⟨hdollar, hbrace⟩ := Bool.and_eq_true_iff.mp hopening
      obtain ⟨tail, rfl⟩ := List.head?_eq_some_iff.mp (eq_of_beq hbrace)
      exact .inr ⟨tail, congrArg (· :: _) (eq_of_beq hdollar)⟩
    · obtain ⟨n, -, hn⟩ := Option.map_eq_some_iff.mp h
      cases hn

/-- After a chunk its end is read as a token. -/
theorem exists_read_of_atChunkEnd {text : List Char} (h : AtChunkEnd text) :
    ∃ l, read .template text = .ok l ∧ (l.kind = .backQuote ∨ l.kind = .dollarBraceL) ∧
      0 < l.length := by
  rcases h.cases with ⟨rest, rfl⟩ | ⟨rest, rfl⟩
  · exact ⟨⟨.backQuote, .none, 1, .zero⟩, rfl, .inl rfl, Nat.one_pos⟩
  · exact ⟨⟨.dollarBraceL, .none, 2, .zero⟩, rfl, .inr rfl, Nat.two_pos⟩

/-- Within a template a chunk is read, or one of the tokens that end a chunk. -/
theorem kind_of_read {previous : TokenKind} {text : List Char} {l : Lexeme}
    (h : read previous text = .ok l) :
    (l.kind = .template ∧ AtChunkEnd (text.drop l.length)) ∨ l.kind = .backQuote ∨
      l.kind = .dollarBraceL := by
  unfold read at h
  split at h
  · cases h
  rename_i n hn
  split at h
  · split at h
    · cases h
      exact .inr (.inr rfl)
    · cases h
      exact .inr (.inl rfl)
  · cases h
    exact .inl ⟨rfl, atChunkEnd_drop (chunkLength_of_readChunk hn)⟩

end EcmaTree.Template
