import EcmaTree.Source.Character
import EcmaTree.Source.Place
import EcmaTree.Source.Slice

/-!
# The reading cursor

A cursor holds the text not yet read and where it begins, and the number and the start of its
line. Moving over characters counts no lines: whoever reads a line terminator has to say that a
line begins behind it. A reader that sees no more than the text of a token counts the lines from
the beginning of that token.
-/

namespace EcmaTree

/-- The lines that begin in a stretch of text: how many, and how many characters stand before the
last of them. -/
structure LineCount where
  begun : Nat
  last : Nat
deriving DecidableEq, Repr, Inhabited

namespace LineCount

def zero : LineCount :=
  ⟨0, 0⟩

/-- A line begins behind the first `done` characters. -/
def newLine (lines : LineCount) (done : Nat) : LineCount :=
  ⟨lines.begun + 1, done⟩

end LineCount

structure Cursor where
  rest : List Char
  offset : Nat
  line : Nat
  lineStart : Nat
deriving Repr, Inhabited

namespace Cursor

def ofText (text : List Char) : Cursor :=
  ⟨text, 0, 1, 0⟩

/-- The place of an offset on the line of the cursor. -/
def placeOf (c : Cursor) (offset : Nat) : Place :=
  ⟨offset, c.line, offset - c.lineStart⟩

def place (c : Cursor) : Place :=
  c.placeOf c.offset

def atEnd (c : Cursor) : Bool :=
  c.rest.isEmpty

/-- Moves over `n` characters of a line; at the end of the text the cursor stays. -/
def skip : Nat → Cursor → Cursor
  | 0, c => c
  | n + 1, c =>
    match c.rest with
    | [] => c
    | ch :: rest => skip n { c with rest := rest, offset := c.offset + ch.utf8Size }

/-- A line begins at the cursor. -/
def newLine (c : Cursor) : Cursor :=
  { c with line := c.line + 1, lineStart := c.offset }

/-- Moves over `n` characters in which lines have been counted. -/
def pass (n : Nat) (lines : LineCount) (c : Cursor) : Cursor :=
  let stop := c.skip n
  if lines.begun = 0 then stop
  else { stop with line := c.line + lines.begun, lineStart := (c.skip lines.last).offset }

theorem skip_rest (n : Nat) (c : Cursor) : (c.skip n).rest = c.rest.drop n := by
  induction n generalizing c with
  | zero => rfl
  | succ n ih =>
    unfold skip
    split
    · rename_i hr
      rw [hr, List.drop_nil]
    · rename_i hr
      rw [ih, hr, List.drop_succ_cons]

theorem skip_offset (n : Nat) (c : Cursor) :
    (c.skip n).offset = c.offset + byteLength (c.rest.take n) := by
  induction n generalizing c with
  | zero => rfl
  | succ n ih =>
    unfold skip
    split
    · rename_i hr
      rw [hr]
      rfl
    · rename_i hr
      rw [ih, hr, List.take_succ_cons, byteLength, Nat.add_assoc]

theorem pass_rest (n : Nat) (lines : LineCount) (c : Cursor) :
    (c.pass n lines).rest = c.rest.drop n := by
  unfold pass
  dsimp only
  split <;> exact skip_rest n c

theorem pass_offset (n : Nat) (lines : LineCount) (c : Cursor) :
    (c.pass n lines).offset = c.offset + byteLength (c.rest.take n) := by
  unfold pass
  dsimp only
  split <;> exact skip_offset n c

end Cursor

end EcmaTree
