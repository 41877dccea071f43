import EcmaTree.Print
import EcmaTree.Proofs.Token.Spells

/-!
# The text of pieces

On a line without indentation pieces of text are written one after the other. So the text of a
layout is put together as the layout is, and only the binding strength that a place asks for
decides whether the layout of an expression is in parentheses there.
-/

namespace EcmaTree

open Layout

/-- On a line without indentation the pieces are written as the text. -/
def Lays (pieces : List Piece) (text : List Char) : Prop :=
  ∀ w : SourceWriter, w.indentLevel = 0 →
    (w.putAll pieces).output = w.output ++ String.ofList text ∧
      (w.putAll pieces).indentLevel = 0

variable {pieces more : List Piece} {text following : List Char}

theorem lays_nil : Lays [] [] := by
  intro w hw
  exact ⟨by simp [SourceWriter.putAll], hw⟩

theorem Lays.append (h : Lays pieces text) (hmore : Lays more following) :
    Lays (pieces ++ more) (text ++ following) := by
  intro w hw
  rw [SourceWriter.putAll_append]
  obtain ⟨houtput, hlevel⟩ := h w hw
  obtain ⟨houtput', hlevel'⟩ := hmore _ hlevel
  exact ⟨by rw [houtput', houtput, String.ofList_append, String.append_assoc], hlevel'⟩

theorem lays_text (s : String) : Lays [.text s] s.toList := by
  intro w hw
  simp only [SourceWriter.putAll, List.foldl_cons, List.foldl_nil, SourceWriter.put,
    String.ofList_toList]
  unfold SourceWriter.write
  split
  · rename_i hempty
    rw [String.isEmpty_iff.mp hempty]
    exact ⟨by simp, hw⟩
  · split
    · simp [SourceWriter.indentation, hw]
    · exact ⟨rfl, hw⟩

theorem Lays.cons (s : String) (h : Lays pieces text) :
    Lays (.text s :: pieces) (s.toList ++ text) :=
  (lays_text s).append h

theorem lays_parenthesized (h : Lays pieces text) :
    Lays (parenthesized pieces) ('(' :: (text ++ [')'])) :=
  .cons "(" (h.append (lays_text ")"))

theorem lays_between (operator : String) (h : Lays pieces text) (hmore : Lays more following) :
    Lays (between operator pieces more)
      (text ++ ' ' :: (operator.toList ++ ' ' :: following)) := by
  have hoperator :
      Lays [.text " ", .text operator, .text " "] (' ' :: (operator.toList ++ [' '])) :=
    .cons " " (.cons operator (lays_text " "))
  simpa [between] using (h.append hoperator).append hmore

/-- A printer writes pieces as their text. -/
theorem Printer.print_of_lays (p : Printer) (h : Lays pieces text) :
    (p.print pieces).1 = String.ofList text := by
  have houtput := (h SourceWriter.empty rfl).1
  unfold Printer.print SourceWriter.take
  simpa [SourceWriter.empty] using houtput

/-! ### Expressions -/

/-- Apart from the parentheses that its place may ask for, an expression has one layout. -/
theorem layout_eq_guarded (e : Expression) (floor : Precedence) :
    Node.layout e floor = guarded e (Node.layout e .sequence) floor := by
  -- No expression is looser than a sequence, so there the guard falls away by computation.
  cases e with
  | update span operator isPrefix argument => cases isPrefix <;> rfl
  | binary span operator left right => cases operator <;> rfl
  | _ => rfl

theorem layout_of_not_looser {e : Expression} {floor : Precedence}
    (h : floor.rank ≤ e.precedence.rank) : Node.layout e floor = Node.layout e .sequence := by
  rw [layout_eq_guarded, guarded, Precedence.isLooser, decide_eq_false (Nat.not_lt.mpr h)]
  rfl

theorem layout_of_looser {e : Expression} {floor : Precedence}
    (h : e.precedence.rank < floor.rank) :
    Node.layout e floor = parenthesized (Node.layout e .sequence) := by
  rw [layout_eq_guarded, guarded, Precedence.isLooser, decide_eq_true h]
  rfl

theorem layout_new (span : Span) (callee : Expression) (arguments : Node (.list .element)) :
    Node.layout (.new span callee arguments) .sequence =
      .text "new " ::
        (if callee.containsCall then parenthesized (Node.layout callee .sequence)
          else Node.layout callee .call) ++
        parenthesized (commaSeparated (Node.layout arguments)) :=
  rfl

theorem layout_member (span : Span) (target selector : Expression) (computed : Bool) :
    Node.layout (.member span target selector computed) .sequence =
      (if target.isInteger && !computed then parenthesized (Node.layout target .sequence)
        else Node.layout target .call) ++
        (if computed then .text "[" :: Node.layout selector .sequence ++ [.text "]"]
          else .text "." :: Node.layout selector .primary) :=
  rfl

theorem layout_ofList {c : Category} (nodes : List (Node c)) :
    Node.layout (Node.ofList nodes) = nodes.map Node.layout := by
  induction nodes with
  | nil => rfl
  | cons node nodes ih => exact congrArg (Node.layout node :: ·) ih

section Lists

variable {α : Type} {items : List α} {f : α → List Piece} {g : α → List Char}

theorem lays_flatMap (each : ∀ i ∈ items, Lays (f i) (g i)) :
    Lays (items.flatMap f) (items.flatMap g) := by
  induction items with
  | nil => exact lays_nil
  | cons i items ih =>
    obtain ⟨hi, each⟩ := List.forall_mem_cons.mp each
    exact hi.append (ih each)

theorem commaSeparated_cons (first : α) (items : List α) :
    commaSeparated ((first :: items).map f) =
      f first ++ items.flatMap fun i => .text ", " :: f i := by
  induction items generalizing first with
  | nil => simp [commaSeparated]
  | cons second items ih =>
    have hmore := ih second
    simp only [commaSeparated, List.map_cons, List.intersperse_cons_cons, List.flatten_cons,
      List.flatMap_cons] at hmore ⊢
    rw [hmore, List.singleton_append, List.cons_append]

theorem holeyRest_some (items : List α) :
    holeyRest (items.map fun i => some (f i)) =
      items.flatMap fun i => .text "," :: .text " " :: f i := by
  induction items with
  | nil => rfl
  | cons i items ih => rw [List.map_cons, holeyRest, ih, List.flatMap_cons]

/-- Items with commas between them are written as a list. -/
theorem lays_list {comma : List Piece} (hcomma : Lays comma [',', ' '])
    {first : α} (each : ∀ i ∈ first :: items, Lays (f i) (g i)) :
    Lays (f first ++ items.flatMap fun i => comma ++ f i)
      (spacedBetween ((first :: items).map g)) := by
  obtain ⟨hfirst, each⟩ := List.forall_mem_cons.mp each
  rw [List.map_cons, spacedBetween, List.flatMap_map]
  exact hfirst.append (lays_flatMap fun i hi => hcomma.append (each i hi))

theorem lays_commaSeparated (each : ∀ i ∈ items, Lays (f i) (g i)) :
    Lays (commaSeparated (items.map f)) (spacedBetween (items.map g)) := by
  cases items with
  | nil => exact lays_nil
  | cons first items =>
    rw [commaSeparated_cons]
    exact lays_list (lays_text ", ") each

/-- Items of a list without holes. -/
theorem lays_holeyList (each : ∀ i ∈ items, Lays (f i) (g i)) :
    Lays (holeyList (items.map fun i => some (f i))) (spacedBetween (items.map g)) := by
  cases items with
  | nil => exact lays_nil
  | cons first items =>
    have hlast : (((items.map fun i => some (f i)).getLast?.getD (some (f first))).isNone) =
        false := by
      rw [List.getLast?_map]
      cases items.getLast? <;> rfl
    have hlays := lays_list (Lays.cons "," (lays_text " ")) each
    simpa [holeyList, hlast, holeyRest_some] using hlays

end Lists

end EcmaTree
