/-!
# Parse options

The options choose between scripts and modules and relax single rules. Modules start
in strict mode unless the strict flag is explicitly off; scripts always start sloppy.
Plugin names are kept in order and without repeats; none of them changes the grammar.
-/

namespace EcmaTree

inductive SourceType where
  | script
  | module
deriving DecidableEq, Repr, Inhabited

namespace SourceType

def name : SourceType → String
  | .script => "script"
  | .module => "module"

def ofName? (name : String) : Option SourceType :=
  if name == "script" then some .script
  else if name == "module" then some .module
  else none

end SourceType

/-- Adds a name to a list of names in increasing order, unless it is there. -/
def insertName (name : String) : List String → List String
  | [] => [name]
  | other :: names =>
    if name == other then other :: names
    else if name < other then name :: other :: names
    else other :: insertName name names

structure ParseOptions where
  sourceType : SourceType := .script
  allowReturnOutsideFunction : Bool := false
  allowImportExportEverywhere : Bool := false
  plugins : List String := []
  strictMode : Option Bool := none
deriving DecidableEq, Repr, Inhabited

namespace ParseOptions

/-- Whether a program starts in strict mode. -/
def initialStrict (o : ParseOptions) : Bool :=
  o.strictMode != some false && o.sourceType == .module

def hasPlugin (o : ParseOptions) (name : String) : Bool :=
  o.plugins.contains name

end ParseOptions

end EcmaTree
