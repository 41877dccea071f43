import EcmaTree.Print.Layout
import EcmaTree.Proofs.Grammar.Legality

/-!
# Nothing is left for an `else` to join

The `else` of an accepted program has joined the nearest `if`, so the statement before it ends in
no other one that is still open. Printing puts braces around such a statement only, and so adds
none to what has been read.
-/

namespace EcmaTree

open EcmaTree.Grammar Node

namespace Node

/-- The second statement stands at the end of the first, with nothing of the first behind it: it is
the last branch of an `if` or the body of a loop or a label. -/
inductive EndsWith : Statement → Statement → Prop
  | consequent {span : Span} {test : Expression} {consequent : Statement} :
      EndsWith (.ifStatement span test consequent .absent) consequent
  | alternate {span : Span} {test : Expression} {consequent alternate : Statement} :
      EndsWith (.ifStatement span test consequent (.present alternate)) alternate
  | forBody {span : Span} {init : Node (.option .forInit)}
      {test update : Node (.option .expression)} {body : Statement} :
      EndsWith (.forStatement span init test update body) body
  | forInBody {span : Span} {left : Node .forTarget} {right : Expression} {body : Statement} :
      EndsWith (.forInStatement span left right body) body
  | forOfBody {span : Span} {left : Node .forTarget} {right : Expression} {body : Statement} :
      EndsWith (.forOfStatement span left right body) body
  | whileBody {span : Span} {test : Expression} {body : Statement} :
      EndsWith (.whileStatement span test body) body
  | labeled {span : Span} {label : Identifier} {body : Statement} :
      EndsWith (.labeledStatement span label body) body

/-- An `if` without `else` is the statement, or stands at its end, however deep. -/
def EndsInOpenIf (s : Statement) : Prop :=
  ∃ span test consequent,
    Relation.ReflTransGen EndsWith s (.ifStatement span test consequent .absent)

variable {s t : Statement}

/-- What stands at the end of a statement is printed last. -/
theorem layout_suffix (h : Relation.ReflTransGen EndsWith s t) : t.layout <:+ s.layout := by
  induction h with
  | refl => exact List.suffix_rfl
  | tail _ hlast ih =>
    refine List.IsSuffix.trans ?_ ih
    have htwo : ∀ {x y : Piece} {pieces : List Piece}, pieces <:+ x :: y :: pieces :=
      (List.suffix_cons _ _).trans (List.suffix_cons _ _)
    cases hlast with
    | labeled => exact htwo.trans (List.suffix_cons _ _)
    | _ => exact htwo.trans (List.suffix_append _ _)

theorem EndsInOpenIf.of_endsWith (h : EndsWith s t) (ht : t.EndsInOpenIf) : s.EndsInOpenIf := by
  obtain ⟨span, test, consequent, hlast⟩ := ht
  exact ⟨span, test, consequent, .head h hlast⟩

theorem endsInOpenIf_of_hasDanglingIf : {s : Statement} → s.hasDanglingIf = true → s.EndsInOpenIf
  | .ifStatement span test consequent .absent, _ => ⟨span, test, consequent, .refl⟩
  | .ifStatement _ _ _ (.present _), h => .of_endsWith .alternate (endsInOpenIf_of_hasDanglingIf h)
  | .forStatement _ _ _ _ _, h => .of_endsWith .forBody (endsInOpenIf_of_hasDanglingIf h)
  | .forInStatement _ _ _ _, h => .of_endsWith .forInBody (endsInOpenIf_of_hasDanglingIf h)
  | .forOfStatement _ _ _ _, h => .of_endsWith .forOfBody (endsInOpenIf_of_hasDanglingIf h)
  | .whileStatement _ _ _, h => .of_endsWith .whileBody (endsInOpenIf_of_hasDanglingIf h)
  | .labeledStatement _ _ _, h => .of_endsWith .labeled (endsInOpenIf_of_hasDanglingIf h)

/-- The test of the printer finds the open `if` at the end of a statement. -/
theorem hasDanglingIf_iff : s.hasDanglingIf = true ↔ s.EndsInOpenIf := by
  refine ⟨endsInOpenIf_of_hasDanglingIf, ?_⟩
  rintro ⟨span, test, consequent, h⟩
  induction h using Relation.ReflTransGen.head_induction_on with
  | refl => rfl
  | head hlast _ ih =>
    cases hlast with
    | consequent => rfl
    | _ => exact ih

end Node

/-- The statement before an `else` ends in no `if` that the `else` could join, and is printed as it
stands. -/
structure File.JoinsNearest (file : File) : Prop where
  closed : ∀ {span test consequent alternate},
    Occurs ⟨_, file.program.body⟩ ⟨_, .ifStatement span test consequent (.present alternate)⟩ →
      ¬consequent.EndsInOpenIf
  unbraced : ∀ {span test consequent alternate},
    Occurs ⟨_, file.program.body⟩ ⟨_, .ifStatement span test consequent (.present alternate)⟩ →
      (Node.ifStatement span test consequent (.present alternate)).layout =
        .text "if (" :: test.layout .sequence ++ .text ")" :: .text " " :: consequent.layout ++
          .text " else" :: .text " " :: alternate.layout

/-- Without an open `if` at its end a branch is laid out as a body that nothing follows. -/
theorem layout_ifStatement_of_closed {span : Span} {test : Expression}
    {consequent alternate : Statement} (h : consequent.hasDanglingIf = false) :
    (Node.ifStatement span test consequent (.present alternate)).layout =
      .text "if (" :: test.layout .sequence ++ .text ")" :: .text " " :: consequent.layout ++
        .text " else" :: .text " " :: alternate.layout := by
  change .text "if (" :: test.layout .sequence ++ .text ")" ::
    Layout.beforeElse consequent consequent.layout ++ .text " else" :: .text " " ::
      alternate.layout = _
  rw [Layout.beforeElse, h]
  simp

/-- Whatever statement is read, the token behind it is no `else` that could join it. In an accepted
program no `else` stands behind a statement that ends in an open `if`, and printing adds no
braces before an `else`. -/
theorem joinsNearest_of_parse {options : ParseOptions} {text : List Char} {file : File}
    (h : (parse options text).result = .ok file) :
    (∀ fuel s r u, answer options fuel .statement s = .ok r u →
      r.EndsInOpenIf → u.kind ≠ .keyword .else) ∧ file.JoinsNearest := by
  have hclosed : ∀ {span test consequent alternate},
      Occurs ⟨_, file.program.body⟩ ⟨_, .ifStatement span test consequent (.present alternate)⟩ →
        consequent.hasDanglingIf = false := by
    intro span test consequent alternate hm
    obtain ⟨τ, hsite⟩ := exists_site_of_occurs (file.scope options) hm
    exact ((isFormed_of_parse h).everywhere _ hsite).heeds nofun
  constructor
  · intro fuel s r u hr
    exact fun hopen => Dangling.endsBefore_of_answer hr (hasDanglingIf_iff.mpr hopen)
  · exact ⟨fun hm => mt hasDanglingIf_iff.mpr (Bool.eq_false_iff.mp (hclosed hm)),
      fun hm => layout_ifStatement_of_closed (hclosed hm)⟩

/-- Through a loop, a label and a statement without its semicolon the first `else` joins the inner
`if`, and the second one the outer. -/
theorem joinsNearest_of_parse_loop : ∃ file,
    (parse {} "if (a) for (b in c) d: while (e) if (f) g\nelse h\nelse if (i) j".toList).result =
      .ok file ∧
    (∀ fuel s r u, answer {} fuel .statement s = .ok r u →
      r.EndsInOpenIf → u.kind ≠ .keyword .else) ∧ file.JoinsNearest := by
  obtain ⟨file, h⟩ := exists_of_isOk (x := (parse {}
    "if (a) for (b in c) d: while (e) if (f) g\nelse h\nelse if (i) j".toList).result)
    (by decide +kernel)
  exact ⟨file, h, joinsNearest_of_parse h⟩

end EcmaTree
