import EcmaTree.Token.Number
import EcmaTree.Token.Punctuator
import EcmaTree.Token.Quoted
import EcmaTree.Token.Regexp
import EcmaTree.Token.Template

/-!
# Reading one lexeme

Outside the text of a template the first character decides which reader takes over. A
slash begins a regular expression where an expression may begin, and is an operator
elsewhere.
-/

namespace EcmaTree.Lexeme

/-- The lexeme at the front of a text that begins with no blank and no comment. -/
def read (expressionAllowed : Bool) (text : List Char) : Except LexicalFault Lexeme :=
  match text with
  | [] => .ok ⟨.eof, .none, 0, .zero⟩
  | c :: rest =>
    if isIdentifierStart c then .ok (word text)
    else if isDecimalDigit c || (c == '.' && rest.head?.any isDecimalDigit) then Number.read text
    else if c == '\x22' || c == '\x27' then Quoted.read c rest
    else if c == '/' && expressionAllowed then Regexp.read rest
    else match Punctuator.read? text with
      | some lexeme => .ok lexeme
      | none => .error ⟨.unexpectedCharacter c, 0, 0, .zero⟩

end EcmaTree.Lexeme
