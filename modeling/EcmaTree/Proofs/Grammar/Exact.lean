import EcmaTree.Proofs.Grammar.Agreement
import EcmaTree.Proofs.Grammar.Agreement.Invariant
import EcmaTree.Proofs.Token.Exact

/-!
# Exact places in a file

A parse takes the places of nodes and of faults from its token stream, where all places are
exact. Set beside itself it shows that nodes and faults are at such places only.
-/

namespace EcmaTree

namespace Grammar

open EcmaTree.Parser EcmaTree.Agreement

variable {options : ParseOptions} {text : List Char} {s t : ParseState}

/-- Steps keep all places in a stream exact. -/
def exactly (text : List Char) : StreamInvariant where
  Holds := TokenStream.IsExact text
  Left := TokenStream.IsExact text
  At := Place.IsExact text
  token hs := hs.token.start
  last hs span hspan := ⟨(hs.last span hspan).start, (hs.last span hspan).stop⟩
  step := by
    rintro s t hs ⟨-, h⟩
    have hend := TokenStream.endsExact_advance hs
    rw [h] at hend
    exact hend
  fail := by
    intro s t e hs h
    have hend := TokenStream.endsExact_advance hs
    rw [h] at hend
    exact hend
  left hs := hs

theorem isExact_of_begins (h : Begins options text s) : s.stream.IsExact text := by
  obtain ⟨stream, hr, rfl⟩ := h
  have hend := TokenStream.endsExact_read (TokenStream.isExact_ofText text)
  rw [hr] at hend
  exact hend

/-- Where the first token has an invariant, the statements of the text end in a stream that has it,
with nodes at places of such streams or with a fault at one. -/
theorem sameEnd_statements (I : StreamInvariant) (h : Begins options text s)
    (hs : I.Holds s.stream) :
    SameEnd (.only I.At) I.likeness.Alike I.likeness.Failed (List.Forall₂ I.likeness.Nodes)
      (answer options (depthBound (.ofText options text)) (.statements true .eof) s)
      (answer options (depthBound (.ofText options text)) (.statements true .eof) s) := by
  have hgoal : Goal.Alike I.likeness.toCorrespondence (.statements true .eof)
      (.statements true .eof) (List.Forall₂ I.likeness.Nodes) := .statements
  have hworth := worth_lt_depthBound h
  exact (agrees_answer id hgoal hworth hworth s ⟨rfl, hs⟩).sameEnd id

/-- An accepted text has a file in which all places are exact. -/
theorem isExact_of_accepted {body : List Statement} (h : Begins options text s)
    (ha : answer options (depthBound (.ofText options text)) (.statements true .eof) s =
      .ok body t) :
    t.stream.IsExact text ∧ ∀ span ∈ (Node.ofList body).spans, span.IsExact text := by
  have hend := sameEnd_statements (exactly text) h (isExact_of_begins h)
  rw [ha] at hend
  cases hend with
  | ok value alike =>
    refine ⟨alike.2, (Node.alike_ofList value).forall_spans ?_⟩
    intro span span' hspan
    obtain ⟨-, hstart, hstop⟩ := Correspondence.spans_only.mp hspan
    exact ⟨hstart, hstop⟩

theorem isExact_of_stopped {stop : Stop} (h : Begins options text s)
    (ha : answer options (depthBound (.ofText options text)) (.statements true .eof) s =
      .error stop t) :
    t.stream.IsExact text ∧ ∃ e, stop = .fault e ∧ e.place.IsExact text := by
  have hend := sameEnd_statements (exactly text) h (isExact_of_begins h)
  rw [ha] at hend
  cases hend with
  | fault errors failed => exact ⟨failed.2, _, rfl, (Correspondence.errors_only.mp errors).2⟩

/-- What a parse ends with is exact: the stream it leaves behind, and the file or the fault. -/
theorem isExact_of_ends {parsed : Parsed}
    (h : Ends options (answer options (depthBound (.ofText options text))) text parsed) :
    parsed.state.stream.IsExact text ∧
      (∀ f, parsed.result = .ok f → (∀ span ∈ f.spans, span.IsExact text) ∧
        ∀ comment ∈ f.comments, comment.span.IsExact text) ∧
      ∀ e, parsed.result = .error (.fault e) → e.place.IsExact text := by
  cases h with
  | unread hr =>
    have hend := TokenStream.endsExact_read (TokenStream.isExact_ofText text)
    rw [hr] at hend
    refine ⟨hend.2, nofun, ?_⟩
    rintro _ ⟨⟩
    exact hend.1
  | stopped begins ha =>
    obtain ⟨hstream, e, rfl, hplace⟩ := isExact_of_stopped begins ha
    refine ⟨hstream, nofun, ?_⟩
    rintro _ ⟨⟩
    exact hplace
  | accepted begins ha =>
    rename_i t body
    obtain ⟨hstream, hbody⟩ := isExact_of_accepted begins ha
    have hspan : (fileSpan t).IsExact text :=
      Span.isExact_closing (Cursor.isExact_origin text) hstream.token.stop
    refine ⟨{ hstream with comments := fun _ h => absurd h (Array.not_mem_empty _) }, ?_, nofun⟩
    rintro _ ⟨⟩
    constructor
    · exact List.forall_mem_cons.mpr ⟨hspan, List.forall_mem_cons.mpr ⟨hspan, hbody⟩⟩
    · intro comment hmem
      exact hstream.comments comment (Array.mem_toList_iff.mp hmem)

/-- Places are exact everywhere: in every stream that reading the text comes to, where the line
of the cursor starts at or before it and the cursor lies within the text, at every fault on the
way, and in what a parse of the text ends with. -/
theorem places_exact (options : ParseOptions) (text : List Char) :
    (∀ s, TokenStream.Reachable text s → s.cursor.lineStart ≤ s.cursor.offset ∧
      s.cursor.offset ≤ byteLength text ∧ s.cursor.place.IsExact text ∧ s.IsExact text) ∧
    (∀ s e t, TokenStream.Reachable text s → TokenStream.read s = .error e t →
      e.place.IsExact text) ∧
    (∀ f, (parse options text).result = .ok f → (∀ span ∈ f.spans, span.IsExact text) ∧
      ∀ comment ∈ f.comments, comment.span.IsExact text) ∧
    (∀ e, (parse options text).result = .error (.fault e) → e.place.IsExact text) ∧
    (parse options text).state.stream.IsExact text := by
  obtain ⟨hstream, hfile, hfault⟩ := isExact_of_ends (ends_parse options text)
  refine ⟨?_, ?_, hfile, hfault, hstream⟩
  · intro s hreach
    have hs := TokenStream.isExact_of_reachable hreach
    exact ⟨hs.cursor.lineStart_le, hs.cursor.offset_le, hs.cursor.place, hs⟩
  · intro s e t hreach hread
    have hend := TokenStream.endsExact_read (TokenStream.isExact_of_reachable hreach)
    rw [hread] at hend
    exact hend.1

end Grammar

end EcmaTree
