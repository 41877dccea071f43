/-!
# The text writer

Text is written through a writer that indents lines. The indentation of a line is
written together with its first text, so a line without text stays empty. What is to
be written is described by pieces, independently of the writer's state.
-/

namespace EcmaTree

/-- A step of writing. -/
inductive Piece where
  | text (s : String)
  | line
  | indent
  | dedent
deriving DecidableEq, Repr, Inhabited

structure SourceWriter where
  output : String
  indentLevel : Nat
  /-- Nothing has been written on the line. -/
  atLineStart : Bool
deriving DecidableEq, Repr, Inhabited

namespace SourceWriter

def empty : SourceWriter :=
  ⟨"", 0, true⟩

/-- The indentation of a level. -/
def indentation (level : Nat) : String :=
  String.ofList (List.replicate (4 * level) ' ')

/-- Writes text, after the indentation where the line has none; line breaks in the text count
as any character. -/
def write (text : String) (w : SourceWriter) : SourceWriter :=
  if text.isEmpty then w
  else if w.atLineStart then
    { w with output := w.output ++ indentation w.indentLevel ++ text, atLineStart := false }
  else { w with output := w.output ++ text }

def writeChar (c : Char) (w : SourceWriter) : SourceWriter :=
  w.write (String.singleton c)

def space (w : SourceWriter) : SourceWriter :=
  w.write " "

def line (w : SourceWriter) : SourceWriter :=
  { w with output := w.output ++ "\n", atLineStart := true }

def indent (w : SourceWriter) : SourceWriter :=
  { w with indentLevel := w.indentLevel + 1 }

def dedent (w : SourceWriter) : SourceWriter :=
  { w with indentLevel := w.indentLevel - 1 }

/-- The number of bytes written. -/
def length (w : SourceWriter) : Nat :=
  w.output.utf8ByteSize

def isEmpty (w : SourceWriter) : Bool :=
  w.output.isEmpty

/-- Takes the text out. The indentation level stays. -/
def take (w : SourceWriter) : String × SourceWriter :=
  (w.output, { w with output := "", atLineStart := true })

def put (w : SourceWriter) : Piece → SourceWriter
  | .text s => w.write s
  | .line => w.line
  | .indent => w.indent
  | .dedent => w.dedent

def putAll (pieces : List Piece) (w : SourceWriter) : SourceWriter :=
  pieces.foldl put w

theorem putAll_append (first second : List Piece) (w : SourceWriter) :
    putAll (first ++ second) w = putAll second (putAll first w) :=
  List.foldl_append

end SourceWriter

end EcmaTree
