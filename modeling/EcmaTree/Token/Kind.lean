/-!
# Token kinds

Operators of one precedence share a kind, and the spelling travels with the token.
A kind knows whether an expression may begin after it, whether it begins an
expression itself, and how tightly it binds as a binary operator.
-/

namespace EcmaTree

inductive Keyword where
  | break | case | catch | continue | debugger | default | do | else | finally | for
  | function | if | return | switch | throw | try | var | const | while | with | new
  | this | super | «class» | extends | export | import | null | true | false | in
  | instanceof | typeof | void | delete
deriving DecidableEq, Repr, Inhabited

namespace Keyword

def all : List Keyword :=
  [.break, .case, .catch, .continue, .debugger, .default, .do, .else, .finally, .for,
   .function, .if, .return, .switch, .throw, .try, .var, .const, .while, .with, .new,
   .this, .super, .class, .extends, .export, .import, .null, .true, .false, .in,
   .instanceof, .typeof, .void, .delete]

def word : Keyword → String
  | .break => "break"
  | .case => "case"
  | .catch => "catch"
  | .continue => "continue"
  | .debugger => "debugger"
  | .default => "default"
  | .do => "do"
  | .else => "else"
  | .finally => "finally"
  | .for => "for"
  | .function => "function"
  | .if => "if"
  | .return => "return"
  | .switch => "switch"
  | .throw => "throw"
  | .try => "try"
  | .var => "var"
  | .const => "const"
  | .while => "while"
  | .with => "with"
  | .new => "new"
  | .this => "this"
  | .super => "super"
  | .class => "class"
  | .extends => "extends"
  | .export => "export"
  | .import => "import"
  | .null => "null"
  | .true => "true"
  | .false => "false"
  | .in => "in"
  | .instanceof => "instanceof"
  | .typeof => "typeof"
  | .void => "void"
  | .delete => "delete"

def ofWord? (w : String) : Option Keyword :=
  all.find? fun k => k.word == w

theorem mem_all (k : Keyword) : k ∈ all := by
  cases k <;> decide

end Keyword

inductive TokenKind where
  | num | regexp | string | name | eof
  | bracketL | bracketR | braceL | braceR | parenL | parenR
  | comma | semi | colon | dot | question | arrow
  | template | ellipsis | backQuote | dollarBraceL
  | eq | assign | incDec | bang | logicalOr | logicalAnd | bitwiseOr | bitwiseXor
  | bitwiseAnd | equality | relational | bitShift | plusMin | modulo | star | slash
  | exponent
  | keyword (k : Keyword)
deriving DecidableEq, Repr, Inhabited

namespace TokenKind

/-- Every kind, the keywords last. -/
def all : List TokenKind :=
  [.num, .regexp, .string, .name, .eof, .bracketL, .bracketR, .braceL, .braceR, .parenL,
   .parenR, .comma, .semi, .colon, .dot, .question, .arrow, .template, .ellipsis,
   .backQuote, .dollarBraceL, .eq, .assign, .incDec, .bang, .logicalOr, .logicalAnd,
   .bitwiseOr, .bitwiseXor, .bitwiseAnd, .equality, .relational, .bitShift, .plusMin,
   .modulo, .star, .slash, .exponent] ++ Keyword.all.map .keyword

/-- The name under which a kind is listed. A keyword goes by its word in title case. -/
def title : TokenKind → String
  | .num => "Num"
  | .regexp => "Regexp"
  | .string => "String"
  | .name => "Name"
  | .eof => "Eof"
  | .bracketL => "BracketL"
  | .bracketR => "BracketR"
  | .braceL => "BraceL"
  | .braceR => "BraceR"
  | .parenL => "ParenL"
  | .parenR => "ParenR"
  | .comma => "Comma"
  | .semi => "Semi"
  | .colon => "Colon"
  | .dot => "Dot"
  | .question => "Question"
  | .arrow => "Arrow"
  | .template => "Template"
  | .ellipsis => "Ellipsis"
  | .backQuote => "BackQuote"
  | .dollarBraceL => "DollarBraceL"
  | .eq => "Eq"
  | .assign => "Assign"
  | .incDec => "IncDec"
  | .bang => "Prefix"
  | .logicalOr => "LogicalOr"
  | .logicalAnd => "LogicalAnd"
  | .bitwiseOr => "BitwiseOr"
  | .bitwiseXor => "BitwiseXor"
  | .bitwiseAnd => "BitwiseAnd"
  | .equality => "Equality"
  | .relational => "Relational"
  | .bitShift => "BitShift"
  | .plusMin => "PlusMin"
  | .modulo => "Modulo"
  | .star => "Star"
  | .slash => "Slash"
  | .exponent => "Exponent"
  | .keyword k => k.word.capitalize

def ofTitle? (t : String) : Option TokenKind :=
  all.find? fun k => k.title == t

def keyword? : TokenKind → Option Keyword
  | .keyword k => some k
  | _ => none

def isKeyword (k : TokenKind) : Bool :=
  k.keyword?.isSome

/-- A label for a reader: the spelling where there is one, else a word for the group. -/
def label : TokenKind → String
  | .num => "num"
  | .regexp => "regexp"
  | .string => "string"
  | .name => "name"
  | .eof => "eof"
  | .bracketL => "["
  | .bracketR => "]"
  | .braceL => "\x7b"
  | .braceR => "\x7d"
  | .parenL => "("
  | .parenR => ")"
  | .comma => ","
  | .semi => ";"
  | .colon => ":"
  | .dot => "."
  | .question => "?"
  | .arrow => "=>"
  | .template => "template"
  | .ellipsis => "..."
  | .backQuote => "\x60"
  | .dollarBraceL => "$\x7b"
  | .eq => "="
  | .assign => "_="
  | .incDec => "++/--"
  | .bang => "prefix"
  | .logicalOr => "||"
  | .logicalAnd => "&&"
  | .bitwiseOr => "|"
  | .bitwiseXor => "^"
  | .bitwiseAnd => "&"
  | .equality => "==/!="
  | .relational => "</>"
  | .bitShift => "<</>>"
  | .plusMin => "+/-"
  | .modulo => "%"
  | .star => "*"
  | .slash => "/"
  | .exponent => "**"
  | .keyword k => k.word

/-- How tightly a binary operator binds; a greater number binds tighter. -/
def binaryStrength? : TokenKind → Option Nat
  | .logicalOr => some 1
  | .logicalAnd => some 2
  | .bitwiseOr => some 3
  | .bitwiseXor => some 4
  | .bitwiseAnd => some 5
  | .equality => some 6
  | .relational | .keyword .in | .keyword .instanceof => some 7
  | .bitShift => some 8
  | .plusMin => some 9
  | .modulo | .star | .slash => some 10
  | .exponent => some 11
  | _ => none

/-- Only the exponent operator groups to the right. -/
def isRightAssociative (k : TokenKind) : Bool :=
  k == .exponent

/-- Whether an expression may begin right after a token of this kind. -/
def beforeExpression (k : TokenKind) : Bool :=
  match k with
  | .bracketL | .braceL | .parenL | .comma | .semi | .colon | .question | .arrow | .ellipsis
  | .dollarBraceL | .eq | .assign | .bang => true
  | .keyword .case | .keyword .default | .keyword .do | .keyword .else | .keyword .return
  | .keyword .throw | .keyword .new | .keyword .extends | .keyword .typeof | .keyword .void
  | .keyword .delete => true
  | k => k.binaryStrength?.isSome

def startsExpression : TokenKind → Bool
  | .num | .regexp | .string | .name | .bracketL | .braceL | .parenL | .backQuote | .incDec
  | .bang | .plusMin => true
  | .keyword .function | .keyword .new | .keyword .this | .keyword .super | .keyword .null
  | .keyword .true | .keyword .false | .keyword .typeof | .keyword .void | .keyword .delete
  | .keyword .class => true
  | _ => false

def isLoop : TokenKind → Bool
  | .keyword .do | .keyword .for | .keyword .while => true
  | _ => false

def isAssignment : TokenKind → Bool
  | .eq | .assign => true
  | _ => false

/-- Operators written before their operand. -/
def isUnary : TokenKind → Bool
  | .incDec | .bang | .plusMin | .keyword .typeof | .keyword .void | .keyword .delete => true
  | _ => false

/-- Operators written after their operand. -/
def isTrailing (k : TokenKind) : Bool :=
  k == .incDec

end TokenKind

end EcmaTree
