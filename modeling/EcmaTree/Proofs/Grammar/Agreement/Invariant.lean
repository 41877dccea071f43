import EcmaTree.Proofs.Grammar.Agreement.Basic

/-!
# A parse beside itself

A property of token streams that steps preserve gives a likeness: a state belongs to itself if
its stream has the property. A parse that agrees with itself in this likeness comes to such
streams only, and to places that such streams have.
-/

namespace EcmaTree

open EcmaTree.Parser

/-- What holds of a token stream is handed on by its steps; less may be left of it after a step
that fails. -/
structure StreamInvariant where
  Holds : TokenStream → Prop
  Left : TokenStream → Prop
  /-- What the places in the streams have in common. -/
  At : Place → Prop
  token : ∀ {s}, Holds s → At s.token.span.start
  last : ∀ {s}, Holds s → ∀ span ∈ s.last, At span.start ∧ At span.stop
  step : ∀ {s t}, Holds s → s.Step t → Holds t
  fail : ∀ {s t e}, Holds s → TokenStream.advance s = .error e t → At e.place ∧ Left t
  left : ∀ {s}, Holds s → Left s

namespace StreamInvariant

variable (I : StreamInvariant) {s : ParseState}

theorem sameEnd_advance (hs : I.Holds s.stream) (hk : s.kind ≠ .eof) :
    SameEnd (.only I.At) (fun t t' => t' = t ∧ I.Holds t.stream)
      (fun t t' => t' = t ∧ I.Left t.stream) Eq (Parser.advance s) (Parser.advance s) := by
  unfold Parser.advance
  cases h : s.stream.advance with
  | ok u stream =>
    rw [scan_of_ok h]
    exact .ok rfl ⟨rfl, I.step hs ⟨hk, h⟩⟩
  | error e stream =>
    obtain ⟨hplace, hleft⟩ := I.fail hs h
    rw [scan_of_error h]
    exact .fault (Correspondence.errors_only.mpr ⟨rfl, hplace⟩) ⟨rfl, hleft⟩

/-- States that are the same, with streams that have the property. -/
def likeness : Likeness where
  toCorrespondence := .only I.At
  Lenient := False
  Alike s s' := s' = s ∧ I.Holds s.stream
  Failed s s' := s' = s ∧ I.Left s.stream
  token := by
    rintro _ s ⟨rfl, hs⟩
    exact ⟨rfl, rfl, rfl, rfl, I.token hs⟩
  last := by
    rintro _ s ⟨rfl, hs⟩
    have hlast := I.last hs
    cases h : s.stream.last with
    | none => exact .none
    | some span => exact .some (Correspondence.spans_only.mpr ⟨rfl, hlast span h⟩)
  afterLineBreak_eq := by
    rintro _ s ⟨rfl, -⟩
    rfl
  scope := by
    rintro _ s ⟨rfl, -⟩
    exact .refl _
  canBeArrow_eq := by
    rintro _ s ⟨rfl, -⟩
    rfl
  rescope := by
    rintro _ s σ σ' ⟨rfl, hs⟩ hσ
    obtain rfl := hσ.eq_of_not id
    exact ⟨rfl, hs⟩
  mark := by
    rintro _ s ⟨rfl, hs⟩
    exact ⟨rfl, hs⟩
  advance := by
    rintro _ s ⟨rfl, hs⟩ hk
    exact I.sameEnd_advance hs hk
  failed := by
    rintro _ s ⟨rfl, hs⟩
    exact ⟨rfl, I.left hs⟩
  failed_popLabel := by
    rintro _ s ⟨rfl, hs⟩
    exact ⟨rfl, hs⟩
  failed_returnTo := by
    rintro _ s σ σ' ⟨rfl, hs⟩ hσ
    obtain rfl := hσ.eq_of_not id
    exact ⟨rfl, hs⟩

end StreamInvariant

end EcmaTree
