import EcmaTree.Fault
import EcmaTree.Tree.Node

/-!
# Checking targets

A pattern is a legal target when strict code takes no reserved name, when a binding
has no member expression, when objects hold no spread and rests no default value, and,
where names are gathered, when no name comes twice. The check goes through a pattern
from left to right and stops at the first offence. The gathered names stay known then.
-/

namespace EcmaTree

/-- Reserved in strict code only. -/
def isStrictReserved (name : String) : Bool :=
  ["implements", "interface", "let", "package", "private", "protected", "public", "static",
   "yield"].contains name

/-- Never a target in strict code. -/
def isStrictBindReserved (name : String) : Bool :=
  ["eval", "arguments"].contains name

def isReservedTarget (name : String) : Bool :=
  isStrictBindReserved name || isStrictReserved name

/-- A check that may gather names; nothing is gathered where there is no list. -/
abbrev Check := EStateM ParseError (Option (List String))

namespace Check

/-- Gathers a name that must be new. -/
def gather (id : Identifier) : Check Unit := fun names =>
  match names with
  | none => .ok () none
  | some names =>
    if names.contains id.name then .error ⟨.repeatedName, id.span.start⟩ (some names)
    else .ok () (some (id.name :: names))

def name (strict isBinding : Bool) (id : Identifier) : Check Unit := do
  if strict && isReservedTarget id.name then
    throw ⟨.reservedName isBinding id.name, id.span.start⟩
  else
    gather id

/-- Fails on a rest whose argument has a default value. -/
def restArgument (argument : Pattern) : Check Unit :=
  match argument with
  | .defaultPattern span _ _ => throw ⟨.restWithDefault, span.start⟩
  | _ => pure ()

end Check

/-- Checks the targets in a node. Keys, default values and objects of members are no targets. -/
def Node.checkTargets (strict isBinding : Bool) : {c : Category} → Node c → Check Unit
  | _, .namePattern id => Check.name strict isBinding id
  | _, .memberPattern span _ _ _ => do
    if isBinding then throw ⟨.memberBinding, span.start⟩
  | _, .objectPattern _ members => checkTargets strict isBinding members
  | _, .arrayPattern _ elements => checkTargets strict isBinding elements
  | _, .defaultPattern _ target _ => checkTargets strict isBinding target
  | _, .restPattern _ argument | _, .restMember _ argument => do
    Check.restArgument argument
    checkTargets strict isBinding argument
  | _, .propertyPattern _ _ value _ => checkTargets strict isBinding value
  | _, .spreadPattern span _ => throw ⟨.notTarget isBinding, span.start⟩
  | _, .cons head tail => do
    checkTargets strict isBinding head
    checkTargets strict isBinding tail
  | _, .present value => checkTargets strict isBinding value
  | _, _ => pure ()

/-- Checks a pattern and gathers its names into `names` if there is such a list. -/
def Pattern.check (strict isBinding : Bool) (names : Option (List String)) (p : Pattern) :
    Except ParseError Unit × Option (List String) :=
  match p.checkTargets strict isBinding names with
  | .ok _ names => (.ok (), names)
  | .error e names => (.error e, names)

/-- Checks patterns from left to right and gathers their names into one list. -/
def Pattern.checkAll (strict isBinding : Bool) (names : Option (List String)) :
    List Pattern → Except ParseError Unit
  | [] => .ok ()
  | p :: rest =>
    match p.check strict isBinding names with
    | (.ok _, names) => checkAll strict isBinding names rest
    | (.error e, _) => .error e

end EcmaTree
