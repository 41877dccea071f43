import EcmaTree.Proofs.Print.Lays
import Mathlib.Data.List.Forall2

/-!
# What stands outside of brackets

The text of an expression is a row of names, words, operators and marks, and of brackets with all
that stands between them. A reader that looks for the end or the beginning of an expression goes
along this row and takes each pair of brackets for one. The pieces of the row are the layout of the
expression, so what is said about the row is said about the text that is written.
-/

namespace EcmaTree

open Layout

/-- Brackets around a part of a text. -/
inductive Bracket where
  | round
  | square
  /-- The braces of a block. -/
  | brace
  /-- The braces of a literal or a pattern, with a space inside each of them. -/
  | wideBrace
  /-- The backquotes of a template. -/
  | quote
deriving DecidableEq

namespace Bracket

def opening : Bracket → String
  | round => "("
  | square => "["
  | brace => "\x7b"
  | wideBrace => "\x7b "
  | quote => "\x60"

def closing : Bracket → String
  | round => ")"
  | square => "]"
  | brace => "\x7d"
  | wideBrace => " \x7d"
  | quote => "\x60"

end Bracket

/-- A segment of the text of an expression. -/
inductive Segment where
  | name (text : String)
  | literal (raw : String)
  /-- A keyword at the front of an expression. -/
  | word (text : String)
  /-- An operator between two operands. -/
  | operator (spelling : String)
  | mark (text : String)
  /-- Brackets and all that stands between them. -/
  | group (bracket : Bracket) (inner : List Piece)
  /-- Braces with nothing between them. -/
  | braces
deriving DecidableEq

namespace Segment

/-- What is written of a segment. -/
def pieces : Segment → List Piece
  | name s | literal s | word s | mark s => [.text s]
  | operator s => [.text " ", .text s, .text " "]
  | group bracket inner => .text bracket.opening :: inner ++ [.text bracket.closing]
  | braces => [.text "\x7b\x7d"]

/-- The expression in parentheses, if a place asks for more strength than it has. -/
def guarded (e : Expression) (inner : List Segment) (floor : Precedence) : List Segment :=
  if e.precedence.isLooser floor then [.group .round (inner.flatMap pieces)] else inner

def braced (members : List (List Piece)) : Segment :=
  if members.isEmpty then .braces else .group .wideBrace (commaSeparated members)

def blockOf (statements : List (List Piece)) : Segment :=
  if statements.isEmpty then .braces
  else .group .brace ([.line, .indent] ++ lines statements ++ [.dedent])

def parameters (params : List (List Piece)) : Segment :=
  .group .round (commaSeparated params)

def functionWord (id : Option Identifier) (generator : Bool) : List Segment :=
  .word (if generator then "function*" else "function") ::
    match id with
    | some id => [.mark " ", .name id.name]
    | none => if generator then [] else [.mark " "]

def commaSeparated (items : List (List Segment)) : List Segment :=
  (items.intersperse [.mark ", "]).flatten

/-- What is accessed, in parentheses of its own if it is a number before a point. -/
def receiver (target : Expression) (computed : Bool) (inner : Precedence → List Segment) :
    List Segment :=
  if target.isInteger && !computed then [.group .round ((inner .sequence).flatMap pieces)]
  else inner .call

def selector (computed : Bool) (property : Precedence → List Segment) : List Segment :=
  if computed then [.group .square ((property .sequence).flatMap pieces)]
  else .mark "." :: property .primary

def following : Option (List Segment) → List Segment
  | none => []
  | some part => .mark " " :: part

end Segment

/-- What the row of a node is, by category. Other nodes stand between brackets or are statements. -/
@[reducible] def Segmented : Category → Type
  | .expression => Precedence → List Segment
  | .pattern | .block | .body => List Segment
  | .list item => List (Segmented item)
  | .option item => Option (Segmented item)
  | _ => Unit

/-- The text of a node as a row of segments. -/
def Node.segments : {c : Category} → Node c → Segmented c
  | _, .identifier id => Segment.guarded (.identifier id) [.name id.name]
  | _, .literal lit => Segment.guarded (.literal lit) [.literal lit.raw]
  | _, .this span => Segment.guarded (.this span) [.word "this"]
  | _, .array span elements =>
    Segment.guarded (.array span elements) [.group .square (holeyList (layout elements))]
  | _, .object span members =>
    Segment.guarded (.object span members) [.braced (layout members)]
  | _, .function span id params body generator =>
    Segment.guarded (.function span id params body generator)
      (Segment.functionWord id generator ++
        .parameters (layout params) :: .mark " " :: segments body)
  | _, .arrow span params body =>
    Segment.guarded (.arrow span params body)
      (.parameters (layout params) :: .mark " => " :: segments body)
  | _, .template span quasis expressions =>
    Segment.guarded (.template span quasis expressions)
      [.group .quote (chunks quasis ((layout expressions).map (· .sequence)))]
  | _, .unary span operator argument =>
    Segment.guarded (.unary span operator argument)
      (.mark operator.spelling ::
        (if operator.needsSpace argument then [.mark " "] else []) ++ segments argument .unary)
  | _, .update span operator true argument =>
    Segment.guarded (.update span operator true argument)
      (.mark operator.spelling :: segments argument .unary)
  | _, .update span operator false argument =>
    Segment.guarded (.update span operator false argument)
      (segments argument .call ++ [.mark operator.spelling])
  | _, .binary span .exp left right =>
    Segment.guarded (.binary span .exp left right)
      (segments left .trailing ++ .operator "**" :: segments right .exponent)
  | _, .binary span operator left right =>
    Segment.guarded (.binary span operator left right)
      (segments left (.ofBinary operator) ++
        .operator operator.spelling :: segments right (Precedence.ofBinary operator).tighter)
  | _, .logical span operator left right =>
    Segment.guarded (.logical span operator left right)
      (segments left (.ofLogical operator) ++
        .operator operator.spelling :: segments right (Precedence.ofLogical operator).tighter)
  | _, .assignment span operator target value =>
    Segment.guarded (.assignment span operator target value)
      (segments target ++ .operator operator.spelling :: segments value .assignment)
  | _, .conditional span test consequent alternate =>
    Segment.guarded (.conditional span test consequent alternate)
      (segments test .logicalOr ++ .mark " ? " :: segments consequent .assignment ++
        .mark " : " :: segments alternate .assignment)
  | _, .call span callee arguments =>
    Segment.guarded (.call span callee arguments)
      (segments callee .call ++ [.parameters (layout arguments)])
  | _, .new span callee arguments =>
    Segment.guarded (.new span callee arguments)
      (.word "new " ::
        (if callee.containsCall then
          [.group .round ((segments callee .sequence).flatMap Segment.pieces)]
         else segments callee .call) ++ [.parameters (layout arguments)])
  | _, .member span target prop computed =>
    Segment.guarded (.member span target prop computed)
      (Segment.receiver target computed (segments target) ++
        Segment.selector computed (segments prop))
  | _, .sequence span expressions =>
    Segment.guarded (.sequence span expressions)
      (Segment.commaSeparated ((segments expressions).map (· .assignment)))
  | _, .yield span argument delegate =>
    Segment.guarded (.yield span argument delegate)
      (.word (if delegate then "yield*" else "yield") ::
        Segment.following ((segments argument).map (· .assignment)))
  | _, .namePattern id => [.name id.name]
  | _, .objectPattern _ members => [.braced (layout members)]
  | _, .arrayPattern _ elements => [.group .square (holeyList (layout elements))]
  | _, .defaultPattern _ target value =>
    segments target ++ .mark " = " :: segments value .assignment
  | _, .restPattern _ argument => .mark "..." :: segments argument
  | _, .memberPattern _ target prop computed =>
    Segment.receiver target computed (segments target) ++
      Segment.selector computed (segments prop)
  | _, .block _ body => [.blockOf (layout body)]
  | _, .blockBody b => (segments b : Segmented .block)
  | _, .conciseBody value =>
    if value.startsLikeStatement then
      [.group .round ((segments value .sequence).flatMap Segment.pieces)]
    else segments value .assignment
  | _, .nil => []
  | _, .cons head tail => segments head :: segments tail
  | _, .absent => none
  | _, .present value => some (segments value)
  | _, .item _ | _, .spread _ _ | _, .rest _ _ | _, .property _ _ _ _ _ _ | _, .spreadMember _ _
  | _, .nameKey _ | _, .literalKey _ | _, .computedKey _ | _, .propertyPattern _ _ _ _
  | _, .restMember _ _ | _, .spreadPattern _ _ | _, .expressionStatement _ _ _
  | _, .blockStatement _ | _, .emptyStatement _ | _, .declarationStatement _
  | _, .functionDeclaration _ _ _ _ _ | _, .returnStatement _ _ | _, .ifStatement _ _ _ _
  | _, .forStatement _ _ _ _ _ | _, .forInStatement _ _ _ _ | _, .forOfStatement _ _ _ _
  | _, .whileStatement _ _ _ | _, .breakStatement _ _ | _, .continueStatement _ _
  | _, .labeledStatement _ _ _ | _, .throwStatement _ _ | _, .tryStatement _ _ _ _
  | _, .declaration _ _ _ | _, .declarator _ _ _ | _, .initDeclaration _ | _, .initExpression _
  | _, .targetDeclaration _ | _, .targetPattern _ | _, .handler _ _ _ => ()

namespace Segment

theorem guarded_eq (e : Expression) (row : List Segment) (floor : Precedence) :
    floor.rank ≤ e.precedence.rank ∧ guarded e row floor = row ∨
      guarded e row floor = [.group .round (row.flatMap pieces)] := by
  unfold guarded
  split
  · exact .inr rfl
  · rename_i hlooser
    exact .inl ⟨Nat.le_of_not_lt fun hlt => hlooser (decide_eq_true hlt), rfl⟩

section Pieces

variable {row : List Segment} {written : List Piece}

@[simp] theorem pieces_word (s : String) : (word s).pieces = [.text s] := rfl
@[simp] theorem pieces_mark (s : String) : (mark s).pieces = [.text s] := rfl

@[simp] theorem pieces_operator (s : String) :
    (operator s).pieces = [.text " ", .text s, .text " "] :=
  rfl

@[simp] theorem pieces_round (inner : List Piece) :
    (group .round inner).pieces = parenthesized inner :=
  rfl

@[simp] theorem pieces_parameters (params : List (List Piece)) :
    (parameters params).pieces = Layout.parameters params :=
  rfl

@[simp] theorem pieces_braced (members : List (List Piece)) :
    (braced members).pieces = Layout.braced members := by
  unfold braced Layout.braced
  split <;> rfl

@[simp] theorem pieces_blockOf (statements : List (List Piece)) :
    (blockOf statements).pieces = Layout.blockOf statements := by
  unfold blockOf Layout.blockOf
  split <;> simp [pieces, Bracket.opening, Bracket.closing]

@[simp] theorem pieces_functionWord (id : Option Identifier) (generator : Bool) :
    (functionWord id generator).flatMap pieces = Layout.functionWord id generator := by
  cases id <;> cases generator <;> rfl

theorem pieces_guarded (e : Expression) (h : row.flatMap pieces = written) (floor : Precedence) :
    (guarded e row floor).flatMap pieces = Layout.guarded e written floor := by
  unfold guarded Layout.guarded
  split
  · rw [h, List.flatMap_singleton, pieces_round]
  · exact h

theorem pieces_commaSeparated (rows : List (List Segment)) :
    (commaSeparated rows).flatMap pieces =
      Layout.commaSeparated (rows.map fun row => row.flatMap pieces) := by
  induction rows with
  | nil => rfl
  | cons row rows ih =>
    cases rows with
    | nil => simp [commaSeparated, Layout.commaSeparated]
    | cons next rows =>
      simp only [commaSeparated, Layout.commaSeparated, List.map_cons,
        List.intersperse_cons_cons, List.flatten_cons, List.flatMap_append] at ih ⊢
      rw [ih]
      rfl

theorem pieces_access (target : Expression) (computed : Bool)
    {inner property : Precedence → List Segment} {inner' property' : Precedence → List Piece}
    (hinner : ∀ floor, (inner floor).flatMap pieces = inner' floor)
    (hproperty : ∀ floor, (property floor).flatMap pieces = property' floor) :
    (receiver target computed inner ++ selector computed property).flatMap pieces =
      access target computed inner' property' := by
  rw [List.flatMap_append, access]
  congr 1
  · unfold receiver
    split
    · rw [hinner, List.flatMap_singleton, pieces_round]
    · exact hinner _
  · unfold selector
    split
    · rw [hproperty, List.flatMap_singleton]
      rfl
    · rw [List.flatMap_cons, hproperty]
      rfl

end Pieces

end Segment

/-- The row is written as the layout. -/
def Writes : (c : Category) → Segmented c → Layout c → Prop
  | .expression, row, l => ∀ floor, (row floor).flatMap Segment.pieces = l floor
  | .pattern, row, l | .block, row, l | .body, row, l => row.flatMap Segment.pieces = l
  | .list c, rows, ls => List.Forall₂ (Writes c) rows ls
  | .option c, row, l => Option.Rel (Writes c) row l
  | _, _, _ => True

theorem map_pieces_of_writes {rows : List (Precedence → List Segment)}
    {layouts : List (Precedence → List Piece)}
    (h : List.Forall₂ (Writes .expression) rows layouts) (floor : Precedence) :
    (rows.map fun row => row floor).map (fun row => row.flatMap Segment.pieces) =
      layouts.map fun l => l floor := by
  induction h with
  | nil => rfl
  | cons head tail ih => exact congrArg₂ List.cons (head floor) ih

/-- By induction on the node: one case for each form that has a row. -/
theorem writes_segments {c : Category} (n : Node c) : Writes c n.segments n.layout := by
  -- The rows of the parts, as `simp` can use them.
  have row {e : Expression} (h : Writes .expression e.segments e.layout) (floor : Precedence) :
      (e.segments floor).flatMap Segment.pieces = e.layout floor := h floor
  induction n with
  | identifier id => exact Segment.pieces_guarded _ rfl
  | literal lit => exact Segment.pieces_guarded _ rfl
  | this span => exact Segment.pieces_guarded _ rfl
  | array span elements ih => exact Segment.pieces_guarded _ (List.append_nil _)
  | object span members ih => exact Segment.pieces_guarded _ (by simp)
  | function span id params body generator ihp ihb =>
    have hbody : (body.segments : List Segment).flatMap Segment.pieces = body.layout := ihb
    exact Segment.pieces_guarded _ (by simp [hbody])
  | arrow span params body ihp ihb =>
    have hbody : (body.segments : List Segment).flatMap Segment.pieces = body.layout := ihb
    exact Segment.pieces_guarded _ (by simp [hbody])
  | template span quasis expressions ih => exact Segment.pieces_guarded _ (List.append_nil _)
  | unary span operator argument ih =>
    exact Segment.pieces_guarded _ (by split <;> simp [row ih])
  | update span operator before argument ih =>
    cases before with
    | true => exact Segment.pieces_guarded _ (by simp [row ih])
    | false => exact Segment.pieces_guarded _ (by simp [row ih])
  | binary span operator left right ihl ihr =>
    cases operator <;> exact Segment.pieces_guarded _ (by simp [between, row ihl, row ihr])
  | logical span operator left right ihl ihr =>
    exact Segment.pieces_guarded _ (by simp [between, row ihl, row ihr])
  | assignment span operator target value iht ihv =>
    have htarget : (target.segments : List Segment).flatMap Segment.pieces = target.layout := iht
    exact Segment.pieces_guarded _ (by simp [between, htarget, row ihv])
  | conditional span test consequent alternate iht ihc iha =>
    exact Segment.pieces_guarded _ (by simp [row iht, row ihc, row iha])
  | call span callee arguments ihc iha =>
    exact Segment.pieces_guarded _ (by simp [row ihc, parameters])
  | new span callee arguments ihc iha =>
    exact Segment.pieces_guarded _ (by split <;> simp [row ihc, parameters])
  | member span target selector computed iht ihs =>
    exact Segment.pieces_guarded _ (Segment.pieces_access target computed iht ihs)
  | sequence span expressions ih =>
    have hrows := map_pieces_of_writes ih .assignment
    exact Segment.pieces_guarded _ ((Segment.pieces_commaSeparated _).trans
      (congrArg commaSeparated hrows))
  | yield span argument delegate ih =>
    cases argument with
    | absent => exact Segment.pieces_guarded _ rfl
    | present value =>
      cases ih with
      | some hvalue =>
        have hwritten : (Segment.following (some (value.segments .assignment))).flatMap
            Segment.pieces = following " " (some (value.layout .assignment)) := by
          simp [Segment.following, following, row hvalue]
        exact Segment.pieces_guarded _ (congrArg
          (Piece.text (if delegate then "yield*" else "yield") :: ·) hwritten)
  | namePattern id => rfl
  | objectPattern span members ih => exact (List.append_nil _).trans (Segment.pieces_braced _)
  | arrayPattern span elements ih => exact List.append_nil _
  | defaultPattern span target value iht ihv =>
    have htarget : (target.segments : List Segment).flatMap Segment.pieces = target.layout := iht
    change (target.segments ++ .mark " = " :: value.segments .assignment : List Segment).flatMap
      Segment.pieces = target.layout ++ .text " = " :: value.layout .assignment
    simp [htarget, row ihv]
  | restPattern span argument ih => exact congrArg (Piece.text "..." :: ·) ih
  | memberPattern span target selector computed iht ihs =>
    exact Segment.pieces_access target computed iht ihs
  | block span body ih => exact (List.append_nil _).trans (Segment.pieces_blockOf _)
  | blockBody b ih => exact ih
  | conciseBody value ih =>
    change (if _ then _ else _ : List Segment).flatMap Segment.pieces = if _ then _ else _
    split
    · simp [row ih]
    · exact ih _
  | nil => exact .nil
  | cons head tail ihh iht => exact .cons ihh iht
  | absent => exact .none
  | present value ih => exact .some ih
  | _ => trivial

end EcmaTree
