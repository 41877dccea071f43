import EcmaTree.Fault

/-!
# Diagnostics

A diagnostic tells a user of a fault in a file, by the byte offset and by line and column.
-/

namespace EcmaTree

inductive Severity where
  | warning
  | error
  | message
deriving DecidableEq, Repr, Inhabited

namespace Severity

def word : Severity → String
  | .warning => "warning"
  | .error => "error"
  | .message => "message"

def title : Severity → String
  | .warning => "Warning"
  | .error => "Error"
  | .message => "Message"

end Severity

structure Diagnostic where
  file : String
  place : Place
  message : String
  severity : Severity
  code : Nat
deriving DecidableEq, Repr, Inhabited

/-- The diagnostic of a parse error in a file. -/
def ParseError.diagnostic (e : ParseError) (file : String) : Diagnostic where
  file := file
  place := e.place
  message := e.fault.message
  severity := .error
  code := e.fault.code

end EcmaTree
