import EcmaTree.Proofs.Token.Calls

/-!
# The text between two tokens

Whether a line ends before the current token is looked up in the text that follows the token
before. A stream remembers that text when it records the token, and the text behind the current one
when it reads it. Calls that fail change neither, so what is looked up is always the slice of the
whole text between the two tokens.
-/

namespace EcmaTree.TokenStream

variable {text : List Char} {s t m : TokenStream}

/-- What the stream remembers is the text behind its current token and behind the one before, and
the cursor has come past both. -/
structure Remembers (text : List Char) (s : TokenStream) : Prop where
  exact : s.IsExact text
  behind : BeginsAt text s.token.span.stop.offset s.behind
  behindLast : BeginsAt text s.lastStop s.behindLast
  stop_le : s.token.span.stop.offset ≤ s.cursor.offset
  lastStop_le : s.lastStop ≤ s.cursor.offset

theorem remembers_ofText (text : List Char) : (ofText text).Remembers text where
  exact := isExact_ofText text
  behind := Cursor.isIn_ofText text
  behindLast := Cursor.isIn_ofText text
  stop_le := Nat.le_refl _
  lastStop_le := Nat.le_refl _

theorem remembers_recorded (h : s.Remembers text) : s.recorded.Remembers text where
  exact := isExact_recorded h.exact
  behind := h.behind
  behindLast := h.behind
  stop_le := h.stop_le
  lastStop_le := h.stop_le

theorem Skips.lastStop_eq (h : Skips s m) : m.lastStop = s.lastStop := by
  unfold lastStop
  rw [h.last_eq]

theorem remembers_of_read (hs : s.Remembers text) (h : read s = .ok () t) : t.Remembers text := by
  have hexact := endsExact_read hs.exact
  rw [h] at hexact
  obtain ⟨m, l, hm, -, rfl⟩ := of_read h
  have hlast := hs.behindLast
  rw [← hm.behindLast_eq, ← hm.lastStop_eq] at hlast
  have hle := Nat.le_trans hs.lastStop_le hm.offset_le
  rw [← hm.lastStop_eq] at hle
  exact ⟨hexact, hexact.cursor.split, hlast, Nat.le_refl _,
    Nat.le_trans hle (Cursor.offset_le_pass _ _ _)⟩

/-- A read that fails moves the cursor on and leaves the rest as it was. -/
theorem remembers_of_read_error {e : ParseError} (hs : s.Remembers text)
    (h : read s = .error e t) : t.Remembers text := by
  have hexact := endsExact_read hs.exact
  rw [h] at hexact
  obtain ⟨m, hm, hleft⟩ := exists_of_read_error h
  have hbehind := hs.behind
  have hlast := hs.behindLast
  have hstop := Nat.le_trans hs.stop_le hm.offset_le
  have hle := Nat.le_trans hs.lastStop_le hm.offset_le
  rw [← hm.behind_eq, ← hm.token_eq] at hbehind
  rw [← hm.behindLast_eq, ← hm.lastStop_eq] at hlast
  rw [← hm.token_eq] at hstop
  rw [← hm.lastStop_eq] at hle
  rcases hleft with rfl | ⟨bad, rfl⟩
  · exact ⟨hexact.2, hbehind, hlast, hstop, hle⟩
  · have hmoved := Cursor.offset_le_pass bad.reached bad.lines m.cursor
    exact ⟨hexact.2, hbehind, hlast, Nat.le_trans hstop hmoved, Nat.le_trans hle hmoved⟩

theorem remembers_of_called (h : Called text s) : s.Remembers text := by
  refine called_induction (remembers_ofText text) (fun _ => remembers_recorded) (fun s hs => ?_) h
  cases hr : read s with
  | ok u t => exact remembers_of_read hs hr
  | error e t => exact remembers_of_read_error hs hr

/-- Behind every token that is read, what is searched for a line break is the slice of the text
between the previous token and this one. -/
theorem slice?_gap (hs : Called text s) (h : read s = .ok () t) :
    slice? text t.lastStop t.token.span.start.offset = some t.gap := by
  have hremembers := remembers_of_called hs
  have ht := remembers_of_read hremembers h
  obtain ⟨before, rest, hstart⟩ := ht.exact.token.start.boundary
  obtain ⟨m, l, hm, -, rfl⟩ := of_read h
  have hle : m.lastStop ≤ m.cursor.offset := by
    rw [hm.lastStop_eq]
    exact Nat.le_trans hremembers.lastStop_le hm.offset_le
  exact slice?_of_beginsAt ht.behindLast ⟨before, hstart⟩ hle

end EcmaTree.TokenStream
