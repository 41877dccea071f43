import EcmaTree.Proofs.Grammar.Exact
import EcmaTree.Proofs.Token.Clear

/-!
# Faults at clear places

A parse blames the places of its stream, which split no line break. So a fault lies on one line of
the text, and the line map shows it there.
-/

namespace EcmaTree.Grammar

open EcmaTree.Parser EcmaTree.Agreement

variable {options : ParseOptions} {text : List Char}

/-- Steps keep the places of a stream clear. A step that fails is the last one. -/
def clearly (text : List Char) : StreamInvariant where
  Holds := TokenStream.IsClear text
  Left _ := True
  At := Place.IsClear text
  token hs := hs.start
  last hs := hs.last
  step := by
    rintro s t hs ⟨-, h⟩
    have hend := TokenStream.endsClear_advance hs
    rw [h] at hend
    exact hend
  fail := by
    intro s t e hs h
    have hend := TokenStream.endsClear_advance hs
    rw [h] at hend
    exact ⟨hend, trivial⟩
  left _ := trivial

theorem isClear_of_begins {s : ParseState} (h : Begins options text s) : s.stream.IsClear text := by
  obtain ⟨stream, hr, rfl⟩ := h
  have hend := TokenStream.endsClear_read (TokenStream.isClear_ofText text)
  rw [hr] at hend
  exact hend

/-- If a parse ends with a fault, the fault is at a clear place. -/
theorem isClear_of_ends {parsed : Parsed}
    (h : Ends options (answer options (depthBound (.ofText options text))) text parsed) :
    ∀ e, parsed.result = .error (.fault e) → e.place.IsClear text := by
  cases h with
  | unread hr =>
    have hend := TokenStream.endsClear_read (TokenStream.isClear_ofText text)
    rw [hr] at hend
    rintro _ ⟨⟩
    exact hend
  | stopped begins ha =>
    have hend := sameEnd_statements (clearly text) begins (isClear_of_begins begins)
    rw [ha] at hend
    rintro _ ⟨⟩
    cases hend with
    | fault errors => exact (Correspondence.errors_only.mp errors).2
  | accepted => nofun

theorem isClear_of_fault {e : ParseError}
    (h : (parse options text).result = .error (.fault e)) : e.place.IsClear text :=
  isClear_of_ends (ends_parse options text) e h

end EcmaTree.Grammar
