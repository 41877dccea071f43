/-!
# Terminal colours

A coloured text begins with the sequence of its style and ends with a reset. A reset
inside the text is followed by the style again, so the style lasts to the end.
-/

namespace EcmaTree

inductive Style where
  | boldRed
  | boldYellow
  | boldCyan
  | cyan
  | brightBlue
deriving DecidableEq, Repr, Inhabited

namespace Style

def parameters : Style → String
  | .boldRed => "1;31"
  | .boldYellow => "1;33"
  | .boldCyan => "1;36"
  | .cyan => "36"
  | .brightBlue => "94"

def sequence (s : Style) : String :=
  "\x1b[" ++ s.parameters ++ "m"

def reset : String :=
  "\x1b[0m"

def paint (s : Style) (text : String) : String :=
  s.sequence ++ text.replace reset (reset ++ s.sequence) ++ reset

/-- The text in a style, if there are colours. -/
def paintIf (s : Style) (color : Bool) (text : String) : String :=
  if color then s.paint text else text

end Style

end EcmaTree
