import EcmaTree.Proofs.Token.Progress

/-!
# How tokens are spelled

A string literal as written stands between two quotes of one kind, whatever escapes are between
them, the value of a keyword is its word, and an operator that assigns and computes is not spelled
like the plain one. These are facts about the one lexeme that is read at the cursor, so they hold of
the current token of every stream that has read one.
-/

namespace EcmaTree

/-- Some text between two quotes of one kind. -/
def IsQuoted (text : List Char) : Prop :=
  ∃ quote body, (quote = '\x22' ∨ quote = '\x27') ∧ text = quote :: (body ++ [quote])

/-- What the kind of a token says about its value and its text. -/
structure IsSpelled (kind : TokenKind) (value : TokenValue) (text : List Char) : Prop where
  quoted : kind = .string → IsQuoted text
  keyword : ∀ word, kind = .keyword word → ∀ name, value = .name name →
    Keyword.ofWord? name = some word
  computes : kind = .assign → value.text? ≠ some "="
  assigns : kind = .eq → value.text? = some "="

namespace Quoted

/-- What is read behind the opening quote ends with the closing one. -/
theorem take_of_readBody {quote : Char} {done owed : Nat} {lines : LineCount} {text : List Char}
    {b : Body} (h : readBody quote done owed lines text = .ok b) :
    ∃ body, text.take (b.length - done) = body ++ [quote] := by
  induction text generalizing done owed lines b with
  | nil => cases h
  | cons c rest ih =>
    -- Behind one more character the rest of the literal is one character shorter.
    have step : ∀ {owed' lines' b'}, readBody quote (done + 1) owed' lines' rest = .ok b' →
        ∃ body, (c :: rest).take (b'.length - done) = body ++ [quote] := by
      intro owed' lines' b' hr
      have hlt := lt_of_readBody hr
      obtain ⟨body, hbody⟩ := ih hr
      refine ⟨c :: body, ?_⟩
      rw [show b'.length - done = b'.length - (done + 1) + 1 by omega, List.take_succ_cons, hbody,
        List.cons_append]
    unfold readBody at h
    split at h
    · exact step h
    split at h
    · next hquote =>
      cases h
      refine ⟨[], ?_⟩
      rw [Nat.add_sub_cancel_left, List.take_succ_cons, List.take_zero, eq_of_beq hquote]
      rfl
    split at h
    · split at h
      · obtain ⟨r, hr, rfl⟩ := of_map h
        have hstep := step hr
        exact hstep
      · cases h
    split at h
    · cases h
    · obtain ⟨r, hr, rfl⟩ := of_map h
      have hstep := step hr
      exact hstep

theorem isQuoted_of_read {quote : Char} {text : List Char} {l : Lexeme}
    (hq : quote = '\x22' ∨ quote = '\x27') (h : read quote text = .ok l) :
    IsQuoted ((quote :: text).take l.length) := by
  obtain ⟨r, hr, rfl⟩ := of_map h
  obtain ⟨body, hbody⟩ := take_of_readBody hr
  have hlt := lt_of_readBody hr
  refine ⟨quote, body, hq, ?_⟩
  change (quote :: text).take r.length = _
  rw [show r.length = r.length - 1 + 1 by omega, List.take_succ_cons, hbody]

end Quoted

theorem Number.kind_of_read {text : List Char} {l : Lexeme} (h : read text = .ok l) :
    l.kind = .num := by
  have based : ∀ {base : Nat} {text : List Char}, readInBase base text = .ok l → l.kind = .num := by
    intro base text h
    unfold readInBase at h
    dsimp only at h
    split at h
    · cases h
    · rw [of_notBeforeName h]
  have decimal : ∀ {text : List Char}, readDecimal text = .ok l → l.kind = .num := by
    intro text h
    unfold readDecimal at h
    dsimp only at h
    split at h
    · cases h
    · rw [of_notBeforeName h]
  unfold read at h
  split at h
  · split at h
    · exact based h
    split at h
    · exact based h
    split at h
    · exact based h
    · exact decimal h
  · exact decimal h

namespace Lexeme

variable {text : List Char} {l : Lexeme}

/-- A kind that is neither a string literal nor a keyword says nothing about the text. -/
theorem isSpelled_of_ne {kind : TokenKind} {value : TokenValue} (hs : kind ≠ .string)
    (hk : ∀ word, kind ≠ .keyword word) (ha : kind = .assign → value.text? ≠ some "=")
    (he : kind = .eq → value.text? = some "=") : IsSpelled kind value text :=
  ⟨fun h => absurd h hs, fun word h => absurd h (hk word), ha, he⟩

theorem isSpelled_word (written : List Char) :
    IsSpelled (word text).kind (word text).value written := by
  unfold word
  dsimp only
  split
  next k hk =>
    refine ⟨nofun, ?_, nofun, nofun⟩
    rintro _ ⟨⟩ _ ⟨⟩
    exact hk
  next => exact ⟨nofun, nofun, nofun, nofun⟩

theorem isSpelled_punctuator {written : List Char} (h : Punctuator.read? text = some l) :
    IsSpelled l.kind l.value written := by
  have hkinds : ∀ p ∈ Punctuator.table,
      p.kind ≠ .string ∧ (∀ k ∈ Keyword.all, p.kind ≠ .keyword k) ∧
        (p.kind = .assign → p.lexeme.value.text? ≠ some "=") ∧
        (p.kind = .eq → p.lexeme.value.text? = some "=") := by
    decide
  obtain ⟨p, hp, rfl⟩ := Option.map_eq_some_iff.mp h
  obtain ⟨hstring, hkeyword, hassign, heq⟩ := hkinds p (List.mem_of_find?_eq_some hp)
  exact isSpelled_of_ne hstring (fun k => hkeyword k (Keyword.mem_all k)) hassign heq

theorem isSpelled_read {allowed : Bool} (h : Lexeme.read allowed text = .ok l) :
    IsSpelled l.kind l.value (text.take l.length) := by
  unfold Lexeme.read at h
  split at h
  · cases h
    exact ⟨nofun, nofun, nofun, nofun⟩
  split at h
  · cases h
    exact isSpelled_word _
  split at h
  · have hk := Number.kind_of_read h
    exact isSpelled_of_ne (by simp [hk]) (by simp [hk]) (by simp [hk]) (by simp [hk])
  split at h
  · next hq =>
    refine ⟨fun _ => Quoted.isQuoted_of_read (by simpa using hq) h, ?_, ?_, ?_⟩
    all_goals
      obtain ⟨r, -, rfl⟩ := Quoted.of_map h
      nofun
  split at h
  · unfold Regexp.read at h
    split at h
    · cases h
    · dsimp only at h
      split at h
      · cases h
        exact ⟨nofun, nofun, nofun, nofun⟩
      · cases h
  split at h
  · next hp =>
    cases h
    exact isSpelled_punctuator hp
  · cases h

theorem isSpelled_template {previous : TokenKind} (h : Template.read previous text = .ok l) :
    IsSpelled l.kind l.value (text.take l.length) := by
  unfold Template.read at h
  split at h
  · cases h
  split at h
  · split at h <;> cases h <;> exact ⟨nofun, nofun, nofun, nofun⟩
  · cases h
    exact ⟨nofun, nofun, nofun, nofun⟩

end Lexeme

namespace TokenStream

variable {s t : TokenStream}

theorem isSpelled_of_read {u : Unit} (h : read s = .ok u t) :
    IsSpelled t.token.kind t.token.value t.token.text := by
  obtain ⟨m, l, -, hl, rfl⟩ := of_read h
  unfold lexeme at hl
  split at hl
  · cases hl
    exact ⟨nofun, nofun, nofun, nofun⟩
  split at hl
  · exact Lexeme.isSpelled_template hl
  · exact Lexeme.isSpelled_read hl

end TokenStream

end EcmaTree
