import EcmaTree.Source.Place
import EcmaTree.Source.Slice

/-!
# Comments

Comments are kept beside the tree, in the order in which they are met. The value of
a comment is its text without delimiters; the span covers the delimiters too.
-/

namespace EcmaTree

inductive CommentKind where
  | line
  | block
deriving DecidableEq, Repr, Inhabited

structure Comment where
  kind : CommentKind
  value : String
  span : Span
deriving DecidableEq, Repr, Inhabited

namespace CommentKind

/-- The node name of a comment in a tree. -/
def name : CommentKind → String
  | .line => "CommentLine"
  | .block => "CommentBlock"

end CommentKind

namespace Comment

/-- Only block comments may run over several lines. -/
def isMultiLine (c : Comment) : Bool :=
  c.kind == .block

/-- The text the comment covers in `source`, empty when the span does not fit. -/
def sourceText (c : Comment) (source : List Char) : List Char :=
  if c.span.isEmpty then []
  else (slice? source c.span.start.offset c.span.stop.offset).getD []

end Comment

end EcmaTree
