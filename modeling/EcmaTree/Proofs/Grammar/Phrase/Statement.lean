import EcmaTree.Print.Ambiguity
import EcmaTree.Proofs.Grammar.Phrase.Primary

/-!
# Phrases that are statements

An expression before a semicolon is a statement by itself, unless its first word begins another
kind of statement. A text that is one such statement is a program of one expression statement.
-/

namespace EcmaTree

open EcmaTree.Parser EcmaTree.Grammar EcmaTree.Reading

namespace Grammar

variable {d : Descent} {σ : Scope} {options : ParseOptions} (hd : Answers options d)
  {words rest : List Word} {e : Expression} {s : ParseState}

include hd

omit hd in
/-- No operand begins a declaration, apart from the name that may. -/
theorem declarationKind?_of_opens (hk : s.kind.opensOperand = true)
    (hlet : s.isWord "let" = false) : declarationKind? s = .ok none s := by
  have hkind : s.stream.token.kind.opensOperand = true := hk
  unfold TokenKind.opensOperand at hkind
  split at hkind
  case h_13 => cases hkind
  all_goals simp [declarationKind?, seesLet, hlet, ‹s.stream.token.kind = _›]

omit hd in
/-- A statement that begins with an operand is an expression. -/
theorem statement_eq_of_opens (hk : s.kind.opensOperand = true) (hlet : s.isWord "let" = false) :
    statement d options s = expressionStatement d s := by
  have hkind : s.stream.token.kind.opensOperand = true := hk
  have hthis : Parser.kind s = .ok s.stream.token.kind s := kind_eq_ok.mpr ⟨rfl, rfl⟩
  unfold statement
  rw [bind_of_ok (declarationKind?_of_opens hk hlet)]
  dsimp only
  rw [bind_of_ok hthis]
  unfold TokenKind.opensOperand at hkind
  split at hkind
  case h_13 => cases hkind
  all_goals rw [‹s.stream.token.kind = _›]

omit hd in
theorem not_isWord_let (hlet : ∀ w ∈ words.head?, w.kind = .name → w.value.text? ≠ some "let")
    (hs : s.Before σ words) : s.isWord "let" = false := by
  refine Bool.eq_false_iff.mpr fun hword => ?_
  obtain ⟨hname, htext⟩ := Bool.and_eq_true_iff.mp hword
  have hkind : s.kind = .name := eq_of_beq hname
  cases words with
  | nil => cases hkind.symm.trans hs.kind_eq
  | cons w words =>
    have hvalue : s.stream.token.value = w.value := hs.value_eq
    rw [hvalue] at htext
    exact hlet w rfl (hs.kind_eq.symm.trans hkind) (eq_of_beq htext)

/-- An expression before a semicolon. -/
theorem statement_of_expression (h : ReadsExpression d σ words e)
    (hopens : (kindAhead words).opensOperand = true)
    (hlet : ∀ w ∈ words.head?, w.kind = .name → w.value.text? ≠ some "let")
    (hs : s.Before σ (words ++ .semi :: rest)) :
    ∃ span e' t, d .statement s = .ok (.expressionStatement span e' none) t ∧
      e'.erase = e.erase ∧ t.Before σ rest := by
  obtain ⟨e', t, hread, hsame, ht⟩ := 
    h.read hd hs (TokenKind.closes_of_none rfl rfl rfl rfl) nofun
  obtain ⟨u, hsemi, hu⟩ := ht.takes
  refine ⟨u.spanFrom s.place, e', u, ?_, hsame, hu⟩
  have hkind : s.kind.opensOperand = true := by
    rw [hs.kind_eq, kindAhead_append hopens]
    exact hopens
  have hexpression : expressionStatement d s =
      .ok (.expressionStatement (u.spanFrom s.place) e' none) u := by
    have hends : Parser.Ends t u := .inl hsemi
    have hcolon : t.kind ≠ .colon := by
      rw [hsemi.1]
      nofun
    simp [expressionStatement]
    refine ⟨e', t, hread, ?_⟩
    rw [beq_eq_false_iff_ne.mpr hcolon, Bool.and_false]
    simpa using hends
  have hword : s.isWord "let" = false := by
    refine not_isWord_let (fun w hw => hlet w ?_) hs
    cases words with
    | nil => cases hopens
    | cons => exact hw
  rw [← hd.rule_eq .statement s trivial]
  exact (statement_eq_of_opens hkind hword).trans hexpression

omit hd in
/-- An expression that is no string is no directive. -/
theorem directive?_of_erase {e' : Expression} (h : e'.erase = e.erase)
    (hstring : Expression.isString e = false) (span : Span) :
    directive? (.expressionStatement span e' none) = none := by
  cases e' with
  | literal lit' =>
    cases e with
    | literal lit =>
      obtain ⟨place, value, raw⟩ := lit
      obtain ⟨place', value', raw'⟩ := lit'
      obtain rfl : value' = value := congrArg Literal.value (Node.literal.inj h)
      cases value' with
      | string => cases hstring
      | _ => rfl
    | _ => cases h
  | _ => rfl

omit hd

/-- A text of one statement is a program of it. -/
theorem parse_of_statement {text : List Char} {st : Statement} {s t : ParseState}
    (hs : Begins options text s) (hk : s.kind ≠ .eof)
    (h : descend options .statement s = .ok st t) (hdirective : directive? st = none)
    (ht : t.kind = .eof) :
    ∃ file, (parse options text).result = .ok file ∧ file.program.body = .ofList [st] := by
  have hd : Answers options (descend options) := answers_descend
  have hmore : descend options (.statements false .eof) t = .ok [] t := by
    rw [← hd.rule_eq (.statements false .eof) t trivial]
    simp [rule, statements, ht]
  have hstatements : descend options (.statements true .eof) s = .ok [st] t := by
    rw [← hd.rule_eq (.statements true .eof) s trivial]
    simp [rule, statements, hk]
    rw [bind_of_ok h, hdirective]
    dsimp only
    rw [bind_of_ok hmore]
    rfl
  have hparse := parseBy_of_accepted hs hstatements
  rw [← parse_eq_descend] at hparse
  exact ⟨_, congrArg Parsed.result hparse, rfl⟩

/-- A text whose first statement is refused is refused. -/
theorem parse_of_refused {text : List Char} {stop : Stop} {s t : ParseState}
    (hs : Begins options text s) (hk : s.kind ≠ .eof)
    (h : descend options .statement s = .error stop t) :
    (parse options text).result = .error stop := by
  have hd : Answers options (descend options) := answers_descend
  have hsees : sees .eof s = .ok false s :=
    sees_eq_ok.mpr ⟨(beq_eq_false_iff_ne.mpr hk).symm, rfl⟩
  have hstatements : descend options (.statements true .eof) s = .error stop t := by
    rw [← hd.rule_eq (.statements true .eof) s trivial]
    change statements (descend options) true .eof s = _
    unfold statements
    rw [bind_of_ok hsees, if_neg Bool.false_ne_true, bind_of_ok hsees, if_neg Bool.false_ne_true]
    exact bind_of_error h
  rw [parse_eq_descend, parseBy_of_stopped hs hstatements]

/-- A text of one expression and a semicolon is a program of one statement. -/
theorem parse_of_expression {text : List Char} (h : ReadsExpression (descend options)
      (ParseState.ofText options text).scope words e)
    (hopens : (kindAhead words).opensOperand = true)
    (hlet : ∀ w ∈ words.head?, w.kind = .name → w.value.text? ≠ some "let")
    (hstring : Expression.isString e = false) {stream : TokenStream}
    (hread : TokenStream.read (.ofText text) = .ok () stream)
    (hshows : stream.Shows (words ++ [.semi])) (hplain : ∀ w ∈ words, w.kind ≠ .arrow) :
    ∃ file span e', (parse options text).result = .ok file ∧
      file.program.body = .ofList [.expressionStatement span e' none] ∧ e'.erase = e.erase := by
  have hd : Answers options (descend options) := answers_descend
  let s : ParseState := { ParseState.ofText options text with stream := stream }
  have hbegins : Begins options text s := ⟨stream, hread, rfl⟩
  have hbefore : s.Before s.scope (words ++ [.semi]) :=
    ⟨hshows, List.forall_mem_append.mpr ⟨hplain, List.forall_mem_singleton.mpr nofun⟩, rfl⟩
  obtain ⟨span, e', t, hstatement, hsame, ht⟩ :=
    statement_of_expression hd h hopens hlet hbefore
  have hk : s.kind ≠ .eof := by
    rw [hbefore.kind_eq, kindAhead_append hopens]
    exact TokenKind.ne_of_opensOperand hopens rfl
  obtain ⟨file, hparse, hbody⟩ := parse_of_statement hbegins hk hstatement
    (directive?_of_erase hsame hstring span) ht.kind_eq
  exact ⟨file, span, e', hparse, hbody, hsame⟩

end Grammar

end EcmaTree
