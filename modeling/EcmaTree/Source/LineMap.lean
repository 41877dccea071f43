import EcmaTree.Source.Character
import EcmaTree.Source.Place
import EcmaTree.Source.Slice

/-!
# Line maps

A line map lists the byte offset at which every line starts. A line ends at a line feed,
at U+2028, at U+2029, and at a carriage return that no line feed follows. The map turns
any offset into a line and column by looking for the last line that starts at or before
it, and gives back the text of a line without its terminator.
-/

namespace EcmaTree

structure LineMap where
  starts : List Nat
deriving DecidableEq, Repr, Inhabited

namespace LineMap

/-- Whether the character `c`, followed by `rest`, ends its line. -/
def endsLine (c : Char) (rest : List Char) : Bool :=
  match c with
  | '\n' | '\u2028' | '\u2029' => true
  | '\r' => rest.head? != some '\n'
  | _ => false

/-- Starts of the lines after the first, for a text that begins at `offset`. -/
def laterStarts : Nat → List Char → List Nat
  | _, [] => []
  | offset, c :: cs =>
    let next := offset + c.utf8Size
    if endsLine c cs then next :: laterStarts next cs else laterStarts next cs

def ofText (text : List Char) : LineMap :=
  ⟨0 :: laterStarts 0 text⟩

def lineCount (m : LineMap) : Nat :=
  m.starts.length

/-- The position of an offset, also of one beyond the text, which counts to the last line. -/
def position (m : LineMap) (offset : Nat) : Position :=
  let before := m.starts.takeWhile (· ≤ offset)
  ⟨before.length, offset - before.getLastD 0⟩

/-- The text of a line counted from one. -/
def lineText? (m : LineMap) (text : List Char) (line : Nat) : Option (List Char) :=
  match line with
  | 0 => none
  | index + 1 =>
    match m.starts.drop index with
    | [] => none
    | [start] => (dropBytes start text).map trimmed
    | start :: next :: _ => (slice? text start next).map trimmed
where
  /-- A line without the terminators at its end. -/
  trimmed (line : List Char) : List Char :=
    (line.reverse.dropWhile isLineTerminator).reverse

end LineMap

end EcmaTree
