import EcmaTree.Source.Character

/-!
# Log settings

A log filter is a list of directives. A bare level stands for that level in every part
of the program, so that nothing else is logged.
-/

namespace EcmaTree

/-- The parts of the program that log. -/
def logTargets : List String :=
  ["cortado_parser", "cortado_scanner", "cortado_emitter", "cortado_cli"]

/-- A text without the blanks around it. -/
def trimWhiteSpace (text : List Char) : List Char :=
  ((text.dropWhile isWhiteSpace).reverse.dropWhile isWhiteSpace).reverse

/-- The directives that a setting stands for. -/
def logDirectives (setting : String) : String :=
  let text := trimWhiteSpace setting.toList
  if text.isEmpty || text.contains '=' || text.contains ',' then String.ofList text
  else ",".intercalate (logTargets.map fun target => target ++ "=" ++ String.ofList text)

inductive LogFormat where
  | text
  | tree
  | json
deriving DecidableEq, Repr, Inhabited

namespace LogFormat

def title : LogFormat → String
  | .text => "Text"
  | .tree => "Tree"
  | .json => "Json"

/-- The format of a name in any case; other names stand for text. Beyond ASCII no character has a
lowercase form that the names hold. -/
def ofName (name : String) : LogFormat :=
  if name.toLower == "tree" then .tree
  else if name.toLower == "json" then .json
  else .text

end LogFormat

end EcmaTree
