import EcmaTree.Token.Lexeme

/-!
# Punctuators

A table lists every punctuator with its kind. The longest spelling at the front of the
text is the one that is read. Spellings of operators travel with the token.
-/

namespace EcmaTree

structure Punctuator where
  spelling : String
  kind : TokenKind
  isOperator : Bool
deriving DecidableEq, Repr, Inhabited

namespace Punctuator

/-- All punctuators, longer spellings first. -/
def table : List Punctuator :=
  [⟨">>>=", .assign, true⟩,
   ⟨"...", .ellipsis, false⟩, ⟨"===", .equality, true⟩, ⟨"!==", .equality, true⟩,
   ⟨"**=", .assign, true⟩, ⟨"<<=", .assign, true⟩, ⟨">>=", .assign, true⟩,
   ⟨">>>", .bitShift, true⟩,
   ⟨"==", .equality, true⟩, ⟨"!=", .equality, true⟩, ⟨"=>", .arrow, false⟩,
   ⟨"<=", .relational, true⟩, ⟨">=", .relational, true⟩, ⟨"<<", .bitShift, true⟩,
   ⟨">>", .bitShift, true⟩, ⟨"++", .incDec, true⟩, ⟨"--", .incDec, true⟩,
   ⟨"+=", .assign, true⟩, ⟨"-=", .assign, true⟩, ⟨"**", .exponent, true⟩,
   ⟨"*=", .assign, true⟩, ⟨"/=", .assign, true⟩, ⟨"%=", .assign, true⟩,
   ⟨"||", .logicalOr, true⟩, ⟨"&&", .logicalAnd, true⟩, ⟨"|=", .assign, true⟩,
   ⟨"&=", .assign, true⟩, ⟨"^=", .assign, true⟩,
   ⟨"(", .parenL, false⟩, ⟨")", .parenR, false⟩, ⟨"[", .bracketL, false⟩,
   ⟨"]", .bracketR, false⟩, ⟨"\x7b", .braceL, false⟩, ⟨"\x7d", .braceR, false⟩,
   ⟨";", .semi, false⟩, ⟨",", .comma, false⟩, ⟨":", .colon, false⟩, ⟨"?", .question, false⟩,
   ⟨".", .dot, false⟩, ⟨"\x60", .backQuote, false⟩, ⟨"=", .eq, true⟩, ⟨"!", .bang, true⟩,
   ⟨"~", .bang, true⟩, ⟨"<", .relational, true⟩, ⟨">", .relational, true⟩,
   ⟨"+", .plusMin, true⟩, ⟨"-", .plusMin, true⟩, ⟨"*", .star, true⟩, ⟨"/", .slash, true⟩,
   ⟨"%", .modulo, true⟩, ⟨"|", .bitwiseOr, true⟩, ⟨"&", .bitwiseAnd, true⟩,
   ⟨"^", .bitwiseXor, true⟩]

def lexeme (p : Punctuator) : Lexeme :=
  ⟨p.kind, if p.isOperator then .operator p.spelling else .none, p.spelling.toList.length, .zero⟩

/-- The longest punctuator at the front of the text. -/
def read? (text : List Char) : Option Lexeme :=
  (table.find? fun p => p.spelling.toList.isPrefixOf text).map lexeme

/-- No spelling is cut short by an entry before it. -/
theorem table_sorted :
    (table.map fun p => p.spelling.toList.length).Pairwise (fun m n => n ≤ m) := by
  decide

end Punctuator

end EcmaTree
