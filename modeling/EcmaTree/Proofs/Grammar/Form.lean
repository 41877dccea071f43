import EcmaTree.Proofs.Grammar.Legality

/-!
# Accepted programs are well formed

Whether a parenthesized list becomes one expression or a sequence, and which of three statements
the head of a `for` begins, is decided behind what has been read, and so is which statements are
directives. Each time the rule that decides knows the form of the node that it makes.
-/

namespace EcmaTree

open EcmaTree.Grammar Node

/-- All nodes of a program have the form that the grammar gives to them, and the directives of the
program lead it. -/
structure File.IsWellFormed (file : File) : Prop where
  nodes : ∀ m, Occurs ⟨_, file.program.body⟩ m → m.2.HasForm
  prologue : IsPrologue file.program.body.toList

/-- In an accepted program sequences, templates, declarations and `try` statements have the parts
that the grammar asks for, only references are changed in place, and directives are exactly the
string literals that lead the program or the body of a function. -/
theorem isWellFormed_of_parse {options : ParseOptions} {text : List Char} {file : File}
    (h : (parse options text).result = .ok file) : file.IsWellFormed := by
  obtain ⟨hformed, hprologue⟩ := isFormed_and_isPrologue_of_parse h
  refine ⟨fun m hm => ?_, hprologue⟩
  obtain ⟨τ, hsite⟩ := exists_site_of_occurs (file.scope options) hm
  exact (hformed.everywhere _ hsite).form

/-- The string in parentheses ends the prologue, and that in the block does not begin one. The
constant has no value because a loop over values gives it one. -/
theorem isWellFormed_of_parse_prologue : ∃ file,
    (parse {} ("'a'; \"b\"; ('c'); 'd'; for (const [e] of f) \x7b 'g' \x7d var h, i = (j, k); " ++
      "try \x7b l.m++ \x7d finally \x7b (function () \x7b 'n'; " ++
      "o += `p$\x7bq\x7dr` \x7d) \x7d").toList).result = .ok file ∧ file.IsWellFormed := by
  obtain ⟨file, h⟩ := exists_of_isOk (x := (parse {}
    ("'a'; \"b\"; ('c'); 'd'; for (const [e] of f) \x7b 'g' \x7d var h, i = (j, k); " ++
      "try \x7b l.m++ \x7d finally \x7b (function () \x7b 'n'; " ++
      "o += `p$\x7bq\x7dr` \x7d) \x7d").toList).result) (by decide +kernel)
  exact ⟨file, h, isWellFormed_of_parse h⟩

end EcmaTree
