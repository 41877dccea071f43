import EcmaTree.Proofs.Grammar.BareDefault.Statement

/-!
# Bare defaults of an accepted program

By induction over a parse every bare default of an accepted program is held by a shorthand of
a pattern. So a bare default survives exactly where a pattern has a shorthand whose own
default value holds one on its spine.
-/

namespace EcmaTree

open EcmaTree.Grammar EcmaTree.Reading Node

namespace BareDefault

/-- The step of the induction: one case for each kind of goal. -/
theorem holds_of_rule {d : Descent} {options : ParseOptions} {g : Goal} {s u : ParseState}
    {r : g.Result} (ht : ∀ g s r u, d g s = .ok r u → g.IsBounded → g.Traces s u)
    (hd : ∀ g s r u, d g s = .ok r u → g.IsBounded → s.stream.IsPlaced → g.Holds s r u)
    (hg : g.IsBounded) (hs : s.stream.IsPlaced) (h : rule options d g s = .ok r u) :
    g.Holds s r u := by
  cases g with
  | statement => exact isHeld_of_statement ht hd hs (of_statement h)
  | statements => exact isHeld_of_statements ht hd hs (of_statements h)
  | declarators => exact isHeld_of_declarators ht hd hs (of_declarators h)
  | assignment =>
    intro ho hp
    exact gathers_of_assignment ht hd hs ho hp (of_assignment h)
  | commaOperands =>
    intro ho hp
    exact gathers_of_commaOperands ht hd hs ho hp (of_commaOperands h)
  | unary =>
    intro hp
    exact gathers_of_unary ht hd hs hp (of_unary h)
  | operators =>
    intro hl
    exact isHeld_of_operators ht hd hs hl (of_operators h)
  | primary =>
    intro hp
    exact gathers_of_primary ht hd hs hp (of_primary h)
  | suffixes =>
    intro hb
    exact isHeld_of_suffixes ht hd hs hb (of_suffixes h)
  | elements =>
    intro hp
    exact gathers_of_elements ht hd hg hs hp (of_elements h)
  | parenthesized =>
    intro hp
    exact gathers_of_parenthesized ht hd hs hp (of_parenthesized h)
  | members =>
    intro hp
    exact gathers_of_members ht hd hs hp (of_members h)
  | chunks => exact isHeld_of_chunks ht hd hs (of_chunks h)
  | targets => exact isHeld_of_targets ht hd hg hs (of_targets h)
  | patternMembers => exact isHeld_of_patternMembers ht hd hs (of_patternMembers h)

/-- Every answer to a goal follows its token stream and holds what it should. -/
theorem holds_of_answer {options : ParseOptions} {fuel : Nat} {g : Goal} {s u : ParseState}
    {r : g.Result} (hg : g.IsBounded) (hs : s.stream.IsPlaced)
    (h : answer options fuel g s = .ok r u) : g.Holds s r u := by
  refine (answer_induction (I := fun g s r u => (g.IsBounded → g.Traces s u) ∧
    (g.IsBounded → s.stream.IsPlaced → g.Holds s r u)) ?_ fuel g s r u h).2 hg hs
  intro d hd g s r u h
  have ht := fun g s r u h => (hd g s r u h).1
  exact ⟨fun hg => Trail.traces_of_rule ht hg h,
    fun hg hs => holds_of_rule ht (fun g s r u h => (hd g s r u h).2) hg hs h⟩

end BareDefault

/-- A bare default occurs in an accepted program exactly if a pattern of it has a shorthand whose
default value holds one on its spine; each of them is held by such a shorthand. -/
theorem bareDefault_of_parse {options : ParseOptions} {text : List Char} {file : File}
    (h : (parse options text).result = .ok file) :
    file.program.body.defaultsHeld false false = true ∧
      (file.program.body.any isBareDefault = true ↔ file.program.body.any isKeeper = true) := by
  obtain ⟨fuel, s, body, t, ⟨stream, hr, rfl⟩, hb, hbody, -, -⟩ := of_parse h
  have hs := TokenStream.isPlaced_of_read hr
  have hheld := BareDefault.holds_of_answer (g := .statements true .eof) trivial hs hb
  have hfile : file.program.body.defaultsHeld false false = true := by
    rw [hbody]
    exact defaultsHeld_ofList.mpr hheld
  exact ⟨hfile, any_isBareDefault_iff hfile⟩

/-- The inner default is forgotten together with the outer one, which the assignment takes up. -/
theorem bareDefault_of_parse_nested : ∃ file,
    (parse {} "({a = {b = 1}} = x)".toList).result = .ok file ∧
      file.program.body.any isBareDefault = true ∧
      file.program.body.defaultsHeld false false = true ∧
      (file.program.body.any isBareDefault = true ↔
        file.program.body.any isKeeper = true) := by
  have hbare : ((parse {} "({a = {b = 1}} = x)".toList).result.toOption.any fun file =>
      file.program.body.any isBareDefault) = true := by
    decide +kernel
  obtain ⟨file, h, hany⟩ : ∃ file, (parse {} "({a = {b = 1}} = x)".toList).result = .ok file ∧
      file.program.body.any isBareDefault = true := by
    cases hr : (parse {} "({a = {b = 1}} = x)".toList).result with
    | error e =>
      rw [hr] at hbare
      cases hbare
    | ok file =>
      rw [hr] at hbare
      exact ⟨file, rfl, hbare⟩
  exact ⟨file, h, hany, bareDefault_of_parse h⟩

end EcmaTree
