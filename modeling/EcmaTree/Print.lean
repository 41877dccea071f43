import EcmaTree.Print.Layout

/-!
# Printing

A printer keeps its writer between uses, and each use begins with an empty one.
-/

namespace EcmaTree

structure Printer where
  writer : SourceWriter
deriving DecidableEq, Repr, Inhabited

namespace Printer

def fresh : Printer :=
  ⟨.empty⟩

/-- Writes pieces with an empty writer and takes the text. -/
def print (_ : Printer) (pieces : List Piece) : String × Printer :=
  let (text, writer) := (SourceWriter.empty.putAll pieces).take
  (text, ⟨writer⟩)

/-- Prints a program, each statement with a line break after it. -/
def printFile (p : Printer) (file : File) : String × Printer :=
  p.print (Layout.lines file.program.body.layout)

/-- Prints one statement, with no line break after it. -/
def printStatement (p : Printer) (statement : Statement) : String × Printer :=
  p.print statement.layout

end Printer

/-- The text of a program. -/
def File.print (file : File) : String :=
  (Printer.fresh.printFile file).1

end EcmaTree
