import EcmaTree.Grammar
import EcmaTree.Print
import EcmaTree.Report
import EcmaTree.Tree.Encode

/-!
# Jobs

A job turns one source text into one product: the tree or the tokens as JSON, or the
printed program. If the source has a fault the job gives its diagnostic instead.
-/

namespace EcmaTree

inductive Product where
  | ast
  | code
  | tokens
deriving DecidableEq, Repr, Inhabited

namespace Product

def name : Product → String
  | .ast => "ast"
  | .code => "code"
  | .tokens => "tokens"

def title : Product → String
  | .ast => "Ast"
  | .code => "Code"
  | .tokens => "Tokens"

def ofName? (name : String) : Option Product :=
  [ast, code, tokens].find? fun p => p.name == name

end Product

/-- How a job ends. -/
inductive Outcome where
  | output (text : String)
  | failed (diagnostic : Diagnostic)
  | exhausted
deriving Repr, Inhabited

/-- A text whose last line is ended. -/
def endingLine (text : String) : String :=
  if text.toList.getLast? == some '\n' then text else text ++ "\n"

/-- The text of a product of a program that was read, with the tokens that reading recorded. -/
def Product.text (product : Product) (file : File) (tokens : Array Token) : String :=
  match product with
  | .ast => file.toJson.pretty 0
  | .tokens => (Json.array (tokens.toList.map Token.toJson)).pretty 0
  | .code => file.print

/-- What is to be made of a source, and how the source is to be read. -/
structure Job where
  options : ParseOptions
  product : Product
deriving DecidableEq, Repr, Inhabited

/-- Makes the product of the source of a file. -/
def Job.run (job : Job) (fileName : String) (source : List Char) : Outcome :=
  let parsed := parse job.options source
  match parsed.result with
  | .ok file => .output (endingLine (job.product.text file parsed.state.stream.tokens))
  | .error (.fault e) => .failed (e.diagnostic fileName)
  | .error .exhausted => .exhausted

/-- The message for a file that cannot be read. -/
def unreadable (file : String) : String :=
  "failed to read " ++ file

end EcmaTree
