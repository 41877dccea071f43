import EcmaTree.Proofs.Grammar.Balance.Statement
import EcmaTree.Proofs.Grammar.Induction
import EcmaTree.Proofs.Grammar.Trail

/-!
# The stack of contexts after a program

The reader pushes and pops contexts by the kinds of tokens alone, and yet the stack is balanced
behind each rule, because the rules match the brackets that the reader has seen. There is one
exception. The reader takes the word `function` for the beginning of a function also where it is
the key of a property. The body of a method pops that context again, while behind any other key it
stays on the stack until the wrong bracket takes it off.
-/

namespace EcmaTree

open EcmaTree.Grammar EcmaTree.Reading Node

namespace Balance

variable {options : ParseOptions}

/-- The step of the induction: one case for each kind of goal. -/
theorem balances_of_rule {d : Descent} (hd : ∀ g s r u, d g s = .ok r u → g.Balances s r u)
    {g : Goal} {s u : ParseState} {r : g.Result} (h : rule options d g s = .ok r u) :
    g.Balances s r u := by
  cases g with
  | statement => exact keeps_statement hd (of_statement h)
  | statements => exact fun hstop => closes_statements hd hstop (of_statements h)
  | declarators => exact keeps_declarators hd (of_declarators h)
  | assignment => exact keeps_assignment hd (of_assignment h)
  | commaOperands => exact keeps_commaOperands hd (of_commaOperands h)
  | unary => exact keeps_unary hd (of_unary h)
  | operators => exact keeps_operators hd (of_operators h)
  | primary => exact keeps_primary hd (of_primary h)
  | suffixes => exact keeps_suffixes hd (of_suffixes h)
  | elements => exact fun hstop => closes_elements hd hstop (of_elements h)
  | parenthesized => exact keeps_parenthesized hd (of_parenthesized h)
  | members => exact closes_members hd (of_members h)
  | chunks => exact balances_chunks hd (of_chunks h)
  | targets => exact fun hstop => closes_targets hd hstop (of_targets h)
  | patternMembers => exact closes_patternMembers hd (of_patternMembers h)

theorem balances_of_answer {fuel : Nat} {g : Goal} {s u : ParseState} {r : g.Result}
    (h : answer options fuel g s = .ok r u) : g.Balances s r u :=
  answer_induction (fun _ hd _ _ _ _ => balances_of_rule hd) fuel g s r u h

end Balance

/-- Behind an accepted program only the lowest context is left if the key of no property other than
a method is the word `function`. -/
theorem balanced_of_parse {options : ParseOptions} {text : List Char} {file : File}
    (h : (parse options text).result = .ok file) (hkeys : file.program.body.IsUnkeyed) :
    (parse options text).state.stream.context.stack = [.braceStatement] := by
  obtain ⟨fuel, s, body, t, ⟨stream, hread, rfl⟩, hb, hbody, -, hstate⟩ := of_parse h
  rw [hbody] at hkeys
  have hcloses := Balance.balances_of_answer hb rfl (isUnkeyed_ofList.mp hkeys)
  have hlies := hcloses [.braceStatement] ⟨nofun, nofun⟩ (TokenStream.liesBehind_first hread).lies
  obtain ⟨-, heof⟩ := Trail.traces_of_answer (g := .statements true .eof) trivial hb
  have heof : t.stream.token.kind = .eof := heof rfl
  rw [hstate]
  change t.stream.context.stack = _
  rw [hlies.stack_eq (heof ▸ rfl), heof]
  rfl

/-- The word `function` begins an expression, is the name of a member and the key of a method. -/
theorem balanced_of_parse_method : ∃ file,
    (parse {} ("a(function (b = `$\x7bc\x7d`) \x7b b.function \x7d, " ++
      "\x7bfunction() \x7b\x7d\x7d)").toList).result = .ok file ∧
      file.program.body.IsUnkeyed ∧
      (parse {} ("a(function (b = `$\x7bc\x7d`) \x7b b.function \x7d, " ++
        "\x7bfunction() \x7b\x7d\x7d)").toList).state.stream.context.stack =
        [.braceStatement] := by
  obtain ⟨file, h⟩ := exists_of_isOk (x :=
    (parse {} ("a(function (b = `$\x7bc\x7d`) \x7b b.function \x7d, " ++
      "\x7bfunction() \x7b\x7d\x7d)").toList).result) (by decide +kernel)
  have hkeys : ((parse {} ("a(function (b = `$\x7bc\x7d`) \x7b b.function \x7d, " ++
      "\x7bfunction() \x7b\x7d\x7d)").toList).result.toOption.all
      fun file => decide file.program.body.IsUnkeyed) = true := by decide +kernel
  rw [h] at hkeys
  exact ⟨file, h, of_decide_eq_true hkeys, balanced_of_parse h (of_decide_eq_true hkeys)⟩

/-- The brace of the object has closed the context of a function that is none. -/
example : (parse {} "(\x7bfunction: 1\x7d)".toList).state.stream.context.stack =
    [.parenExpression, .braceStatement] := by
  decide +kernel

end EcmaTree
