import EcmaTree.Fault
import EcmaTree.Tree.Node

/-!
# From expressions to patterns

A literal is first read as an expression. When a later token shows that it was a
target, it is converted: names, literals of arrays and objects, default values and,
outside bindings, member expressions have a pattern, and nothing else has. The first
node that has none is blamed, at its own start.
-/

namespace EcmaTree

/-- What the conversion makes of a node. Expressions, elements and members wait for the flag
that says whether names are bound, and elements also for the flag that says whether they are the
last of their list. -/
@[reducible]
def Converted : Category → Type
  | .expression => Bool → Except ParseError Pattern
  | .element => Bool → Bool → Except ParseError Pattern
  | .member => Bool → Except ParseError PatternMember
  | .list c => List (Converted c)
  | .option c => Option (Converted c)
  | _ => Unit

namespace Converted

def notPattern {α : Type} (kind : String) (span : Span) : Except ParseError α :=
  .error ⟨.notPattern kind, span.start⟩

/-- What becomes of nodes that have no pattern, and of nodes that are not asked. -/
def refused : (c : Category) → Node c → Converted c
  | .expression, e => fun _ => notPattern (Expression.kindName e) e.span
  | .element, e => fun _ _ => notPattern "SpreadElement" e.span
  | .member, m => fun _ => notPattern "SpreadElement" m.span
  | .list _, _ => []
  | .option _, _ => none
  | .key, _ | .pattern, _ | .patternMember, _ | .block, _ | .body, _ | .statement, _
  | .declaration, _ | .declarator, _ | .forInit, _ | .forTarget, _ | .handler, _ => ()

/-- The argument of a spread at the end of a list; only some patterns may gather the rest. -/
def restArgument (p : Pattern) : Except ParseError Pattern :=
  match p with
  | .namePattern _ | .memberPattern _ _ _ _ | .arrayPattern _ _ => .ok p
  | _ => .error ⟨.unexpectedToken, p.span.start⟩

/-- Converts the elements of a list in order; holes stay holes. -/
def list (isBinding : Bool) :
    List (Option (Converted .element)) → Except ParseError (List (Option Pattern))
  | [] => .ok []
  | none :: rest => do
    let patterns ← list isBinding rest
    return none :: patterns
  | some convert :: rest => do
    let pattern ← convert rest.isEmpty isBinding
    let patterns ← list isBinding rest
    return some pattern :: patterns

def members (isBinding : Bool) :
    List (Converted .member) → Except ParseError (List PatternMember)
  | [] => .ok []
  | convert :: rest => do
    let member ← convert isBinding
    let members ← members isBinding rest
    return member :: members

end Converted

/-- Converts a node and all nodes below it that the pattern keeps. -/
def Node.convert : {c : Category} → Node c → Converted c
  | _, .identifier id => fun _ => .ok (.namePattern id)
  | _, .object span members => fun isBinding => do
    return .objectPattern span (.ofList (← Converted.members isBinding (convert members)))
  | _, .array span elements => fun isBinding => do
    return .arrayPattern span (.ofHoleyList (← Converted.list isBinding (convert elements)))
  | _, .assignment span operator target value => fun _ =>
    if operator = .assign then .ok (.defaultPattern span target value)
    else .error ⟨.compoundDefault, target.span.stop⟩
  | _, .member span obj prop computed => fun isBinding =>
    if isBinding then Converted.notPattern "MemberExpression" span
    else .ok (.memberPattern span obj prop computed)
  | _, .item value => fun _ isBinding => convert value isBinding
  | _, .spread span argument => fun isLast isBinding => do
    if isLast then
      return .restPattern span (← Converted.restArgument (← convert argument isBinding))
    else Converted.notPattern "SpreadElement" span
  | _, .rest span argument => fun isLast _ =>
    if isLast then .ok (.restPattern span argument)
    else Converted.notPattern "RestElement" span
  | _, .property span key value kind _ shorthand => fun isBinding => do
    if kind = .init then return .propertyPattern span key (← convert value isBinding) shorthand
    else .error ⟨.accessorInPattern, key.span.start⟩
  | _, .spreadMember span argument => fun _ => .ok (.spreadPattern span argument)
  | _, .cons head tail => convert head :: convert tail
  | _, .present value => some (convert value)
  | c, node => Converted.refused c node

/-- The pattern an expression stands for. With `isBinding` its names are bound, and no member
expression may stand for a place to bind. -/
def Expression.toPattern (e : Expression) (isBinding : Bool) : Except ParseError Pattern :=
  e.convert isBinding

/-- The pattern of an element that is not the last one; there nothing gathers the rest. -/
def Element.toPattern (e : Element) (isBinding : Bool) : Except ParseError Pattern :=
  e.convert false isBinding

/-- The patterns of a list, whose last element may gather the rest. -/
def patternsOfElements (elements : List (Option Element)) (isBinding : Bool) :
    Except ParseError (List (Option Pattern)) :=
  Converted.list isBinding (elements.map fun e => e.map Node.convert)

end EcmaTree
