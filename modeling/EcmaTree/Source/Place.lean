/-!
# Places and spans in a source text

A place is a byte offset together with the line and column a reader sees: lines
count from one, columns count bytes from zero. A span is the stretch of text
between two places. A span that ends before it starts is empty.
-/

namespace EcmaTree

structure Position where
  line : Nat
  column : Nat
deriving DecidableEq, Repr, Inhabited

namespace Position

/-- The form `line:column` used in messages. -/
def text (p : Position) : String :=
  toString p.line ++ ":" ++ toString p.column

/-- Earlier lines come first, and on one line earlier columns. -/
def order (p q : Position) : Ordering :=
  (compare p.line q.line).then (compare p.column q.column)

end Position

structure Place where
  offset : Nat
  position : Position
deriving DecidableEq, Repr, Inhabited

structure Span where
  start : Place
  stop : Place
deriving DecidableEq, Repr, Inhabited

namespace Span

/-- Bytes covered. -/
def length (s : Span) : Nat :=
  s.stop.offset - s.start.offset

def isEmpty (s : Span) : Bool :=
  s.stop.offset ≤ s.start.offset

/-- The smallest span over both; at equal offsets the places of `s` are kept. -/
def cover (s t : Span) : Span where
  start := if t.start.offset < s.start.offset then t.start else s.start
  stop := if s.stop.offset < t.stop.offset then t.stop else s.stop

/-- The span from `start` to `stop`, or the empty span at `start` when `stop` lies before it. -/
def closing (start stop : Place) : Span :=
  if stop.offset < start.offset then ⟨start, start⟩ else ⟨start, stop⟩

theorem start_closing (start stop : Place) : (closing start stop).start = start := by
  unfold closing
  split <;> rfl

end Span

end EcmaTree
