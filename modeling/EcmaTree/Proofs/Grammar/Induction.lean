import EcmaTree.Proofs.Grammar.Reading.Statement

/-!
# Induction over a parse

What every rule establishes when the answers it depends on establish it holds of every
answer, by induction on the fuel. A program is one answer to the goal for its statements,
begun after its first token has been read.
-/

namespace EcmaTree.Grammar

open EcmaTree.Parser

variable {options : ParseOptions}

/-- A property of answers that every rule hands on holds of all answers. -/
theorem answer_induction {I : (g : Goal) → ParseState → g.Result → ParseState → Prop}
    (hrule : ∀ d : Descent, (∀ g s r u, d g s = .ok r u → I g s r u) →
      ∀ g s r u, rule options d g s = .ok r u → I g s r u) (fuel : Nat) :
    ∀ g s r u, answer options fuel g s = .ok r u → I g s r u := by
  induction fuel with
  | zero =>
    intro g s r u h
    cases h
  | succ fuel ih => exact hrule (answer options fuel) ih

theorem exists_of_isOk {ε α : Type} {x : Except ε α} (h : x.isOk = true) : ∃ a, x = .ok a := by
  cases x with
  | ok a => exact ⟨a, rfl⟩
  | error e => cases h

/-- The state with the first token of a text read. -/
def Begins (options : ParseOptions) (text : List Char) (s : ParseState) : Prop :=
  ∃ stream, TokenStream.read (.ofText text) = .ok () stream ∧
    s = { ParseState.ofText options text with stream := stream }

/-- The state after a program, whose comments have been handed out. -/
def handOut (s : ParseState) : ParseState :=
  { s with stream := { s.stream with comments := #[] } }

theorem of_file {d : Descent} {text : List Char} {f : File} {u : ParseState}
    (h : file options d (.ofText options text) = .ok f u) :
    ∃ s body t, Begins options text s ∧ d (.statements true .eof) s = .ok body t ∧
      f.program.body = .ofList body ∧ f.comments = t.stream.comments.toList ∧ u = handOut t := by
  simp [file, scan] at h
  obtain ⟨s, hs, body, t, hb, rfl, rfl⟩ := h
  split at hs
  · rename_i stream hr
    cases hs
    exact ⟨_, body, t, ⟨stream, hr, rfl⟩, hb, rfl, rfl, rfl⟩
  · cases hs

/-- An accepted text is one answer for its statements from its first token on. -/
theorem of_parse {text : List Char} {f : File} (h : (parse options text).result = .ok f) :
    ∃ fuel s body t, Begins options text s ∧
      answer options fuel (.statements true .eof) s = .ok body t ∧
      f.program.body = .ofList body ∧ f.comments = t.stream.comments.toList ∧
      (parse options text).state = handOut t := by
  unfold parse run at h ⊢
  cases hf : file options (answer options (depthBound (.ofText options text)))
      (.ofText options text) with
  | error stop state =>
    rw [hf] at h
    cases h
  | ok f' state =>
    rw [hf] at h
    cases h
    obtain ⟨s, body, t, hs, hb, hbody, hc, rfl⟩ := of_file hf
    exact ⟨_, s, body, t, hs, hb, hbody, hc, rfl⟩

/-- A program goes from the start of the text to the end of the last token. -/
theorem spans_of_parse {text : List Char} {f : File} (h : (parse options text).result = .ok f) :
    f.span = Span.closing (Cursor.ofText text).place
      (parse options text).state.stream.token.span.stop ∧ f.program.span = f.span := by
  unfold parse run at h ⊢
  cases hf : file options (answer options (depthBound (.ofText options text)))
      (.ofText options text) with
  | error stop state =>
    rw [hf] at h
    cases h
  | ok f' state =>
    rw [hf] at h
    cases h
    simp [file, scan] at hf
    obtain ⟨s, -, body, t, -, rfl, rfl⟩ := hf
    exact ⟨rfl, rfl⟩

end EcmaTree.Grammar
