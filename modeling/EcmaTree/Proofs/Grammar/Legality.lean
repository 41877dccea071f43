import EcmaTree.Proofs.Grammar.Induction
import EcmaTree.Proofs.Grammar.Legality.Statement

/-!
# Accepted programs are legal

By induction over a parse each node of an accepted program obeys the rules of the scope in which
it stands. A program stands outside of all functions and labels, and its directives turn strict
mode on for all of it.
-/

namespace EcmaTree

open EcmaTree.Grammar EcmaTree.Reading Node

namespace Legality

variable {options : ParseOptions}

/-- The step of the induction: one case for each kind of goal. -/
theorem obeys_of_rule {d : Descent}
    (hd : ∀ g σ front s r u, s.Stands σ front → d g s = .ok r u → g.Obeys options σ front s r u)
    (he : ∀ s r u, d .statement s = .ok r u → r.EndsBefore u) {g : Goal}
    {σ : Scope} {front : Nat} {s u : ParseState} {r : g.Result}
    (hs : s.Stands σ front) (h : rule options d g s = .ok r u) :
    g.Obeys options σ front s r u := by
  cases g with
  | statement => exact legal_statement hd he hs (of_statement h)
  | statements => exact legal_statements hd hs (of_statements h)
  | declarators => exact legal_declarators hd hs (of_declarators h)
  | assignment => exact legal_assignment hd hs (of_assignment h)
  | commaOperands => exact legal_commaOperands hd hs (of_commaOperands h)
  | unary => exact legal_unary hd hs (of_unary h)
  | operators =>
    intro hl hstarts
    exact legal_operators hd hs hl hstarts (of_operators h)
  | primary => exact legal_primary hd hs (of_primary h)
  | suffixes =>
    intro hb hstarts
    exact legal_suffixes hd hs hb hstarts (of_suffixes h)
  | elements => exact legal_elements hd hs (of_elements h)
  | parenthesized => exact legal_parenthesized hd hs (of_parenthesized h)
  | members => exact legal_members hd hs (of_members h)
  | chunks => exact legal_chunks hd hs (of_chunks h)
  | targets => exact legal_targets hd hs (of_targets h)
  | patternMembers => exact legal_patternMembers hd hs (of_patternMembers h)

/-- Every answer to a goal obeys the scope in which the goal is asked. -/
theorem obeys_of_answer {fuel : Nat} {g : Goal} {σ : Scope} {front : Nat} {s u : ParseState}
    {r : g.Result} (hs : s.Stands σ front) (h : answer options fuel g s = .ok r u) :
    g.Obeys options σ front s r u := by
  refine (answer_induction (I := fun g s r u => g.EndsBefore r u ∧ ∀ σ front, s.Stands σ front →
    g.Obeys options σ front s r u) ?_ fuel g s r u h).2 σ front hs
  intro d hd g s r u h
  have he : ∀ g s r u, d g s = .ok r u → g.EndsBefore r u := fun g s r u h => (hd g s r u h).1
  refine ⟨Dangling.endsBefore_of_rule he h, fun σ front hs => ?_⟩
  exact obeys_of_rule (fun g σ front s r u hs h => (hd g s r u h).2 σ front hs)
    (he .statement) hs h

end Legality

/-- The scope in which the statements of a program stand. -/
def File.scope (options : ParseOptions) (file : File) : Scope :=
  ⟨options.initialStrict || file.program.body.toList.any isUseStrict, false, false, []⟩

/-- The rules have made sure of every node of an accepted program in the scope in which it
stands, and a prologue leads the program. -/
theorem isFormed_and_isPrologue_of_parse {options : ParseOptions} {text : List Char} {file : File}
    (h : (parse options text).result = .ok file) :
    file.program.body.IsFormed options (file.scope options) ∧
      IsPrologue file.program.body.toList := by
  obtain ⟨fuel, s, body, t, ⟨stream, hread, rfl⟩, hb, hbody, -, -⟩ := of_parse h
  obtain ⟨ht, hformed, -, hprologue⟩ := Legality.obeys_of_answer
    ⟨rfl, TokenStream.isPlaced_of_read hread, Nat.zero_le _⟩ hb
  have hscope : t.scope = file.scope options := by
    rw [ht.scope_eq, File.scope, hbody, toList_ofList]
    rfl
  rw [hbody, toList_ofList]
  exact ⟨Legality.isFormed_ofList.mpr (hscope ▸ hformed), hprologue rfl⟩

theorem isFormed_of_parse {options : ParseOptions} {text : List Char} {file : File}
    (h : (parse options text).result = .ok file) :
    file.program.body.IsFormed options (file.scope options) :=
  (isFormed_and_isPrologue_of_parse h).1

/-- Every node of an accepted program obeys the rules of the scope in which it stands. -/
theorem isLegal_of_parse {options : ParseOptions} {text : List Char} {file : File}
    (h : (parse options text).result = .ok file) :
    file.program.body.IsLegal options (file.scope options) :=
  (isFormed_of_parse h).isLegal

/-- What a search through an accepted program finds occurs in it. -/
theorem exists_occurs_of_parse {options : ParseOptions} {text : List Char}
    {p : {c : Category} → Node c → Bool}
    (h : ((parse options text).result.toOption.any fun file => file.program.body.any p) = true) :
    ∃ file m, (parse options text).result = .ok file ∧
      Occurs ⟨_, file.program.body⟩ m ∧ p m.2 = true := by
  cases hr : (parse options text).result with
  | error e =>
    rw [hr] at h
    cases h
  | ok file =>
    rw [hr] at h
    obtain ⟨m, hm, hp⟩ := exists_occurs_of_any h
    exact ⟨file, m, rfl, hm, hp⟩

end EcmaTree
