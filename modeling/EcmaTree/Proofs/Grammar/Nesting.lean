import EcmaTree.Proofs.Grammar.Nesting.Statement
import EcmaTree.Proofs.Grammar.Trail

/-!
# The spans of an accepted program form a tree over the text

By induction over a parse the answer to each goal lies between the tokens it has been read from.
The statements of a program lie between its first token and the end of input, and the program
goes from the start of the text to its end, also over what stands before the first token.
-/

namespace EcmaTree

open EcmaTree.Parser EcmaTree.Grammar EcmaTree.Reading Node TokenStream

namespace Nesting

variable {options : ParseOptions} {text : List Char} {s u : ParseState}

/-- The step of the induction: one case for each kind of goal. -/
theorem nests_of_rule {d : Descent} (hd : ∀ g s r u, d g s = .ok r u → g.Nests text s r u)
    {g : Goal} {r : g.Result} (h : rule options d g s = .ok r u) : g.Nests text s r u := by
  cases g with
  | statement => exact covers_statement hd (of_statement h)
  | statements => exact covers_statements hd (of_statements h)
  | declarators => exact covers_declarators hd (of_declarators h)
  | assignment => exact covers_assignment hd (of_assignment h)
  | commaOperands => exact covers_commaOperands hd (of_commaOperands h)
  | unary => exact covers_unary hd (of_unary h)
  | operators => exact fun _ hstart hl => covers_operators hd hstart hl (of_operators h)
  | primary => exact covers_primary hd (of_primary h)
  | suffixes => exact fun _ hstart hb => covers_suffixes hd hstart hb (of_suffixes h)
  | elements => exact covers_elements hd (of_elements h)
  | parenthesized => exact covers_parenthesized hd (of_parenthesized h)
  | members => exact covers_members hd (of_members h)
  | chunks => exact fun _ next => covers_chunks hd (of_chunks h) next
  | targets => exact covers_targets hd (of_targets h)
  | patternMembers => exact covers_patternMembers hd (of_patternMembers h)

/-- Every answer lies between the tokens it has been read from. -/
theorem nests_of_answer {fuel : Nat} {g : Goal} {r : g.Result}
    (h : answer options fuel g s = .ok r u) : g.Nests text s r u :=
  answer_induction (I := fun g s r u => g.Nests text s r u)
    (fun _ hd _ _ _ _ h => nests_of_rule hd h) fuel g s r u h

/-- Before the first token nothing has been left behind. -/
theorem isFit_of_begins (h : Begins options text s) : s.stream.IsFit text := by
  obtain ⟨stream, hr, rfl⟩ := h
  have hlast : ∀ span ∈ (ofText text).last, span.stop.offset ≤ (ofText text).cursor.offset := nofun
  exact ⟨isCovered_of_read (Cursor.isIn_ofText text) (isTiled_ofText text) hlast hr,
    isPlaced_of_read hr⟩

end Nesting

namespace TokenStream

/-- The end of input ends where the text does. -/
theorem IsCovered.stop_of_eof {text : List Char} {s : TokenStream} (hs : s.IsCovered text)
    (hk : s.token.kind = .eof) : s.token.span.stop.offset = byteLength text :=
  hs.stop_eq.trans (Cursor.offset_of_rest_eq_nil hs.cursor (hs.rest_eq hk))

end TokenStream

/-- A span from the start of the text to its end. -/
def Span.IsWhole (text : List Char) (span : Span) : Prop :=
  span.start.offset = 0 ∧ span.stop.offset = byteLength text

theorem Span.isWhole_closing {text : List Char} {stop : Place}
    (h : stop.offset = byteLength text) :
    (Span.closing (Cursor.ofText text).place stop).IsWhole text := by
  have start : ¬stop.offset < (Cursor.ofText text).place.offset := Nat.not_lt_zero _
  rw [Span.closing, if_neg start]
  exact ⟨rfl, h⟩

/-- The spans of a program form a tree over the text. -/
structure File.IsNested (text : List Char) (file : File) : Prop where
  file_whole : file.span.IsWhole text
  program_whole : file.program.span.IsWhole text
  /-- The statements of the program lie one after the other in the text. -/
  statements_inside : ∀ x ∈ file.program.body.outline, x.stop.offset ≤ byteLength text
  statements_ordered : file.program.body.outline.Pairwise Span.Precedes
  /-- So does what lies right below each node in it, and what is written there is its text. -/
  nodes : ∀ m, Occurs ⟨_, file.program.body⟩ m → m.2.IsNested text
  /-- At whatever depth, what is below a node lies within its span. -/
  within : ∀ {m m' : (c : Category) × Node c}, Occurs ⟨_, file.program.body⟩ m → Occurs m m' →
    m.1.IsPlaced → m'.1.IsPlaced →
    m.2.span.start.offset ≤ m'.2.span.start.offset ∧ m'.2.span.stop.offset ≤ m.2.span.stop.offset

/-- In an accepted program every node lies within the one around it, those below a node lie one
after the other, and names, literals and chunks of templates are the text of their spans. -/
theorem nested_of_parse {options : ParseOptions} {text : List Char} {file : File}
    (h : (parse options text).result = .ok file) : file.IsNested text := by
  obtain ⟨fuel, s, body, t, hs, hb, hbody, -, hstate⟩ := of_parse h
  obtain ⟨hspan, hprogram⟩ := spans_of_parse h
  obtain ⟨-, heof⟩ := Trail.traces_of_answer (g := .statements true .eof) trivial hb
  have hcovers : Covers text s.stream t.stream [.node (.ofList body)] :=
    Nesting.nests_of_answer hb
  have stretch := hcovers (Nesting.isFit_of_begins hs)
  have hstop := stretch.fit.covered.stop_of_eof (heof rfl)
  have whole : file.span.IsWhole text := by
    rw [hspan, hstate]
    exact Span.isWhole_closing hstop
  have hall : file.program.body.AllNested text := by
    rw [hbody]
    exact stretch.sound _ List.mem_cons_self
  have hspans : spansOf [.node (.ofList body)] = file.program.body.outline := by
    rw [hbody]
    exact List.append_nil _
  refine ⟨whole, by rwa [hprogram], fun x hx => ?_, ?_, hall, fun hm hm' hc hc' => ?_⟩
  · have hx := stretch.within x (hspans ▸ hx)
    have hended := stretch.fit.ended_le
    have hwidth : t.stream.front ≤ t.stream.token.span.stop.offset :=
      stretch.fit.placed.start_le_stop
    omega
  · rw [← hspans]
    exact stretch.ordered
  · exact Node.AllNested.within (fun below hbelow => hall below (hm.trans hbelow)) hm' hc hc'

/-- Shorthand properties become patterns, and in the default value of one of them stands a template
with an empty chunk and with a conversion of its own. -/
theorem nested_of_parse_template : ∃ file,
    (parse {} "/* ö */ (\x7ba, b = `é$\x7b[c] = d\x7d`\x7d = e)".toList).result = .ok file ∧
      file.IsNested "/* ö */ (\x7ba, b = `é$\x7b[c] = d\x7d`\x7d = e)".toList := by
  obtain ⟨file, h⟩ := exists_of_isOk (x := (parse {}
    "/* ö */ (\x7ba, b = `é$\x7b[c] = d\x7d`\x7d = e)".toList).result) (by decide +kernel)
  exact ⟨file, h, nested_of_parse h⟩

end EcmaTree
