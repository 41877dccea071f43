import EcmaTree.Report.Diagnostic
import EcmaTree.Report.Paint
import EcmaTree.Source.LineMap

/-!
# Reports of diagnostics

A report names the severity, the number, the message and the place, and shows the line
of the source with a caret below the place. Places of diagnostics count bytes, and
reports count characters, from one.
-/

namespace EcmaTree

namespace Diagnostic

/-- A line of the source and its part before the place, which is the whole line if the place
lies inside a character or beyond the line. -/
structure Excerpt where
  line : List Char
  before : List Char
deriving DecidableEq, Repr

def excerpt? (d : Diagnostic) (source : List Char) : Option Excerpt :=
  ((LineMap.ofText source).lineText? source d.place.position.line).map fun line =>
    ⟨line, (takeBytes d.place.position.column line).getD line⟩

/-- The place as a reader counts it, after `before` characters of its line. -/
def location (d : Diagnostic) (color : Bool) (before : Nat) : String :=
  Style.cyan.paintIf color
    (d.file ++ ":" ++ toString d.place.position.line ++ ":" ++ toString (before + 1))

def severityStyle : Severity → Style
  | .error => .boldRed
  | .warning => .boldYellow
  | .message => .boldCyan

def heading (d : Diagnostic) (color : Bool) : String :=
  (severityStyle d.severity).paintIf color d.severity.word ++
    Style.brightBlue.paintIf color ("[" ++ toString d.code ++ "]") ++ ": " ++ d.message ++ " at "

/-- What stands above the caret's left: tabs where the line has tabs, else blanks. -/
def caretIndent (before : List Char) : List Char :=
  before.map fun c => if c == '\t' then '\t' else ' '

/-- The line with its number, and the caret below. -/
def snippet (d : Diagnostic) (color : Bool) (e : Excerpt) : String :=
  let number := toString d.place.position.line
  let blank := String.ofList (List.replicate number.length ' ')
  "\n " ++ number ++ " | " ++ String.ofList e.line ++
    "\n " ++ blank ++ " | " ++ String.ofList (caretIndent e.before) ++
    Style.boldRed.paintIf color "^"

/-- The report of a diagnostic. Without the line there is no snippet, and the column counts
bytes. -/
def report (d : Diagnostic) (color : Bool) (source : List Char) : String :=
  d.heading color ++
    match d.excerpt? source with
    | some e => d.location color e.before.length ++ d.snippet color e
    | none => d.location color d.place.position.column

end Diagnostic

end EcmaTree
