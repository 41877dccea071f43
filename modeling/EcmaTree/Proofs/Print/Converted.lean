import EcmaTree.Proofs.Grammar.Induction
import EcmaTree.Proofs.Print.Lays
import EcmaTree.Proofs.Target.Kept
import Mathlib.Data.List.Forall2

/-!
# A pattern is printed like its expression

Layouts that cut the same text into other pieces are written alike, in whatever state the writer
is. The layouts of an expression and of the pattern made of it differ in nothing else: what has a
pattern binds tight enough for every place in a literal, so it stands in no parentheses.
-/

namespace EcmaTree

open Layout Node

namespace SourceWriter

theorem write_append (first second : String) (w : SourceWriter) :
    w.write (first ++ second) = (w.write first).write second := by
  by_cases hfirst : first = ""
  · subst hfirst
    simp [write]
  by_cases hsecond : second = ""
  · subst hsecond
    simp [write]
  cases w with
  | mk output level atLineStart =>
    cases atLineStart <;> simp [write, hfirst, hsecond, String.append_assoc]

/-- Pieces of text next to each other are written like one piece. -/
theorem putAll_text_append (first second : String) (pieces : List Piece) :
    putAll (.text (first ++ second) :: pieces) = putAll (.text first :: .text second :: pieces) := by
  funext w
  exact congrArg (putAll pieces) (write_append first second w)

variable {xs ys xs' ys' : List Piece}

theorem putAll_append_congr (h : putAll xs = putAll ys) (h' : putAll xs' = putAll ys') :
    putAll (xs ++ xs') = putAll (ys ++ ys') := by
  funext w
  rw [putAll_append, putAll_append, h, h']

theorem putAll_cons_congr (piece : Piece) (h : putAll xs = putAll ys) :
    putAll (piece :: xs) = putAll (piece :: ys) := by
  funext w
  exact congrFun h (w.put piece)

end SourceWriter

open SourceWriter

section Lists

/-- Both are written alike. -/
abbrev WrittenAlike (xs ys : List Piece) : Prop :=
  putAll xs = putAll ys

theorem writtenAlike_commaSeparated {xs ys : List (List Piece)}
    (h : List.Forall₂ WrittenAlike xs ys) :
    WrittenAlike (commaSeparated xs) (commaSeparated ys) := by
  induction h with
  | nil => rfl
  | cons head tail ih =>
    cases tail with
    | nil => simpa [commaSeparated] using head
    | cons next tail =>
      simp only [commaSeparated, List.intersperse_cons_cons, List.flatten_cons] at ih ⊢
      exact putAll_append_congr head (putAll_append_congr rfl ih)

theorem writtenAlike_braced {xs ys : List (List Piece)} (h : List.Forall₂ WrittenAlike xs ys) :
    WrittenAlike (braced xs) (braced ys) := by
  cases h with
  | nil => rfl
  | cons head tail =>
    have hinner := writtenAlike_commaSeparated (.cons head tail)
    exact putAll_cons_congr _ (putAll_append_congr hinner rfl)

theorem writtenAlike_holeyRest {xs ys : List (Option (List Piece))}
    (h : List.Forall₂ (Option.Rel WrittenAlike) xs ys) :
    WrittenAlike (holeyRest xs) (holeyRest ys) := by
  induction h with
  | nil => rfl
  | cons head tail ih =>
    cases head with
    | none => exact putAll_cons_congr _ ih
    | some item =>
      exact putAll_cons_congr _ (putAll_cons_congr _ (putAll_append_congr item ih))

theorem writtenAlike_getD {x y : Option (List Piece)} (h : Option.Rel WrittenAlike x y) :
    WrittenAlike (x.getD []) (y.getD []) := by
  cases h with
  | none => rfl
  | some item => exact item

theorem isNone_eq_of_rel {x y : Option (List Piece)} (h : Option.Rel WrittenAlike x y) :
    x.isNone = y.isNone := by
  cases h <;> rfl

/-- Both lists have a hole at the end or none. -/
theorem isNone_getLast_eq {first first' : Option (List Piece)}
    {xs ys : List (Option (List Piece))} (hfirst : Option.Rel WrittenAlike first first')
    (h : List.Forall₂ (Option.Rel WrittenAlike) xs ys) :
    (xs.getLast?.getD first).isNone = (ys.getLast?.getD first').isNone := by
  induction h generalizing first first' with
  | nil => exact isNone_eq_of_rel hfirst
  | cons head tail ih =>
    rw [List.getLast?_cons, List.getLast?_cons]
    exact ih head

theorem writtenAlike_holeyList {xs ys : List (Option (List Piece))}
    (h : List.Forall₂ (Option.Rel WrittenAlike) xs ys) :
    WrittenAlike (holeyList xs) (holeyList ys) := by
  cases h with
  | nil => rfl
  | cons head tail =>
    have hitems := putAll_append_congr (writtenAlike_getD head) (writtenAlike_holeyRest tail)
    simp only [holeyList, isNone_getLast_eq head tail]
    exact putAll_append_congr hitems rfl

end Lists

/-- An operator with its spaces is written like one piece of text. -/
theorem writtenAlike_between (operator : String) (left right : List Piece) :
    WrittenAlike (between operator left right)
      (left ++ .text (" " ++ operator ++ " ") :: right) := by
  have hspaced : putAll (.text " " :: .text operator :: .text " " :: right) =
      putAll (.text (" " ++ operator ++ " ") :: right) := by
    rw [putAll_text_append, putAll_text_append]
  rw [between, List.append_assoc]
  exact putAll_append_congr rfl hspaced

/-- The layouts of a node and of what it is converted to are written alike. -/
def LaidAlike : (c c' : Category) → Layout c → Layout c' → Prop
  | .expression, .pattern, e, p => WrittenAlike (e .sequence) p
  | .element, .pattern, x, p => WrittenAlike x p
  | .member, .patternMember, x, p => WrittenAlike x p
  | .list c, .list c', xs, ys => List.Forall₂ (LaidAlike c c') xs ys
  | .option c, .option c', x, y => Option.Rel (LaidAlike c c') x y
  | _, _, _, _ => True

variable {isBinding : Bool}

/-- What has a pattern stands without parentheses wherever an assignment does. -/
theorem layout_assignment_of_converts {e : Expression} {p : Pattern} (h : Converts isBinding e p) :
    Node.layout e .assignment = Node.layout e .sequence := by
  have htight : Precedence.assignment.rank ≤ e.precedence.rank := by
    cases h <;> simp [Expression.precedence, Precedence.rank]
  exact layout_of_not_looser htight

/-- By induction on the conversion: one case for each form that has a pattern. -/
theorem laidAlike_of_converts {c c' : Category} {n : Node c} {m : Node c'}
    (h : Converts isBinding n m) : LaidAlike c c' n.layout m.layout := by
  induction h with
  | name id => rfl
  | object members ih => exact writtenAlike_braced ih
  | array elements ih =>
    exact putAll_cons_congr _ (putAll_append_congr (writtenAlike_holeyList ih) rfl)
  | default span target value =>
    exact writtenAlike_between "=" target.layout (value.layout .assignment)
  | member span obj prop computed free => rfl
  | @item value p value_ok ih =>
    change WrittenAlike (value.layout .assignment) p.layout
    rw [layout_assignment_of_converts value_ok]
    exact ih
  | @spread span argument p argument_ok gathers ih =>
    change WrittenAlike (.text "..." :: argument.layout .assignment) (.text "..." :: p.layout)
    rw [layout_assignment_of_converts argument_ok]
    exact putAll_cons_congr _ ih
  | rest span argument => rfl
  | @property span key value p method shorthand value_ok ih =>
    have hvalue : WrittenAlike (value.layout .assignment) p.layout := by
      rw [layout_assignment_of_converts value_ok]
      exact ih
    have hplain : Node.layout (.property span key value .init method shorthand) =
        plainProperty key.layout (value.layout .assignment) shorthand := by
      cases value_ok <;> rfl
    rw [hplain]
    change WrittenAlike _ (plainProperty key.layout p.layout shorthand)
    cases shorthand with
    | true => exact hvalue
    | false => exact putAll_append_congr rfl (putAll_cons_congr _ hvalue)
  | spreadMember span argument => rfl
  | nil => exact .nil
  | cons head tail last ihh iht => exact .cons ihh iht
  | hole => exact .none
  | present value ih => exact .some ih

/-- What the conversion of an expression hands on to the pattern. -/
structure Node.Preserves (e : Expression) (p : Pattern) : Prop where
  span_eq : p.span = e.span
  /-- Names, holes, members, keys, flags and default values, at whatever depth. -/
  traits_eq : p.traits = e.traits
  written_eq : ∀ w : SourceWriter, w.putAll p.layout = w.putAll (e.layout .sequence)

/-- A pattern has the span, the parts and the text of the expression that it is made of, and what
can be bound can be assigned to as well. -/
theorem preserves_of_toPattern {e : Expression} {p : Pattern} {isBinding : Bool}
    (h : e.toPattern isBinding = .ok p) :
    e.Preserves p ∧ (isBinding = true → e.toPattern false = .ok p) := by
  have hconverts := converts_of_toPattern h
  refine ⟨⟨hconverts.span_eq, hconverts.traits_eq, fun w => ?_⟩, fun _ => ?_⟩
  · exact (congrFun (laidAlike_of_converts hconverts) w).symm
  · exact toPattern_eq_ok_iff.mpr hconverts.loosen

/-- An array with a hole, an object with a shorthand and a default value, and a rest. -/
theorem preserves_of_toPattern_array : ∃ e p,
    parseExpression {} "[, \x7ba, [b]: c = d\x7d, ...e]".toList = .ok e ∧
      e.toPattern true = .ok p ∧ e.Preserves p ∧ e.toPattern false = .ok p := by
  obtain ⟨e, he⟩ := Grammar.exists_of_isOk (x :=
    parseExpression {} "[, \x7ba, [b]: c = d\x7d, ...e]".toList) (by decide +kernel)
  have hall : ((parseExpression {} "[, \x7ba, [b]: c = d\x7d, ...e]".toList).toOption.all
      fun e => (Expression.toPattern e true).isOk) = true := by decide +kernel
  rw [he] at hall
  obtain ⟨p, hp⟩ := Grammar.exists_of_isOk hall
  have hpreserves := preserves_of_toPattern hp
  exact ⟨e, p, he, hp, hpreserves.1, hpreserves.2 rfl⟩

end EcmaTree
