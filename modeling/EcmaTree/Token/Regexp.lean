import EcmaTree.Token.Lexeme

/-!
# Regular expression literals

The pattern runs to the first slash that is neither escaped nor in a class in
brackets, and stays on its line. The flags are the identifier characters after it:
known letters, each at most once.
-/

namespace EcmaTree.Regexp

def flagLetters : List Char :=
  ['d', 'g', 'i', 'm', 's', 'u', 'y', 'v']

/-- The length of the pattern, or how many characters were read before it broke off. -/
def patternLength (inClass escaped : Bool) : List Char → Except Nat Nat
  | [] => .error 0
  | c :: rest =>
    let next (inClass escaped : Bool) :=
      match patternLength inClass escaped rest with
      | .ok n => .ok (n + 1)
      | .error n => .error (n + 1)
    if isLineTerminator c then .error 0
    else if escaped then next inClass false
    else if c == '/' && !inClass then .ok 0
    else if c == '[' then next true false
    else if c == ']' then next false false
    else next inClass (c == '\\')

/-- Known letters without repeats. -/
def validFlags : List Char → Bool
  | [] => true
  | c :: rest => flagLetters.contains c && !rest.contains c && validFlags rest

/-- A regular expression; `text` begins after its first slash. -/
def read (text : List Char) : Except LexicalFault Lexeme :=
  match patternLength false false text with
  | .error n => .error ⟨.unterminatedRegexp, 0, n + 1, .zero⟩
  | .ok n =>
    let flags := (text.drop (n + 1)).takeWhile isIdentifierPart
    let length := n + flags.length + 2
    if validFlags flags then
      .ok ⟨.regexp, .regexp (String.ofList (text.take n)) (String.ofList flags), length, .zero⟩
    else .error ⟨.badRegexpFlag, 0, length, .zero⟩

end EcmaTree.Regexp
