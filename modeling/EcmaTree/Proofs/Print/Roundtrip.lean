import EcmaTree.Proofs.Grammar.Phrase.Statement
import EcmaTree.Proofs.Print.Forms

/-!
# Printed expressions are read again

Expressions with operators, calls, members and arrays, in any nesting, have as many parentheses and
spaces in their text as it takes: the text of an expression statement is a program of one statement,
which is the expression again, apart from its places.
-/

namespace EcmaTree

open EcmaTree.Parser EcmaTree.Grammar EcmaTree.Reading

/-- Expressions built from names, integers and `this` by operators, assignments to names and
members, commas, calls, `new`, members and arrays without holes. -/
inductive IsBuilt : Expression → Prop
  | name {id : Identifier} (ordinary : IsOrdinaryName id.name) : IsBuilt (.identifier id)
  | integer (span : Span) {raw : String} (digits_ne_nil : raw.toList ≠ [])
      (digits : ∀ c ∈ raw.toList, isDecimalDigit c = true) :
      IsBuilt (.literal ⟨span, .number (Decimal.nearest (Decimal.naturalOf raw.toList) 0), raw⟩)
  | this (span : Span) : IsBuilt (.this span)
  | unary (span : Span) (operator : UnaryOperator) {argument : Expression}
      (h : IsBuilt argument) : IsBuilt (.unary span operator argument)
  | update (span : Span) (operator : UpdateOperator) (before : Bool) {argument : Expression}
      (simple : IsSimple argument) (h : IsBuilt argument) :
      IsBuilt (.update span operator before argument)
  | join (span : Span) (operator : InfixOperator) {left right : Expression} (hl : IsBuilt left)
      (hr : IsBuilt right) : IsBuilt (operator.join span left right)
  | conditional (span : Span) {test consequent alternate : Expression} (ht : IsBuilt test)
      (hc : IsBuilt consequent) (ha : IsBuilt alternate) :
      IsBuilt (.conditional span test consequent alternate)
  | assignName (span : Span) (operator : AssignmentOperator) {id : Identifier} {value : Expression}
      (ht : IsBuilt (.identifier id)) (hv : IsBuilt value) :
      IsBuilt (.assignment span operator (.namePattern id) value)
  | assignMember (span : Span) (operator : AssignmentOperator) {place : Span}
      {target selector value : Expression} {computed : Bool}
      (ht : IsBuilt (.member place target selector computed)) (hv : IsBuilt value) :
      IsBuilt (.assignment span operator (.memberPattern place target selector computed) value)
  | sequence (span : Span) {values : List Expression} (many : 2 ≤ values.length)
      (each : ∀ e ∈ values, IsBuilt e) : IsBuilt (.sequence span (.ofList values))
  | call (span : Span) {callee : Expression} {values : List Expression} (hc : IsBuilt callee)
      (each : ∀ e ∈ values, IsBuilt e) :
      IsBuilt (.call span callee (.ofList (values.map .item)))
  | new (span : Span) {callee : Expression} {values : List Expression} (hc : IsBuilt callee)
      (each : ∀ e ∈ values, IsBuilt e) :
      IsBuilt (.new span callee (.ofList (values.map .item)))
  | dot (span : Span) {target : Expression} {property : Identifier} (ht : IsBuilt target)
      (ordinary : IsOrdinaryName property.name) :
      IsBuilt (.member span target (.identifier property) false)
  | bracket (span : Span) {target property : Expression} (ht : IsBuilt target)
      (hp : IsBuilt property) : IsBuilt (.member span target property true)
  | array (span : Span) {values : List Expression} (each : ∀ e ∈ values, IsBuilt e) :
      IsBuilt (.array span (.ofHoleyList (values.map fun e => some (.item e))))

namespace IsBuilt

variable {d : Descent} {σ : Scope} {options : ParseOptions} {e : Expression}

theorem isArrow_eq (h : IsBuilt e) : e.isArrow = false := by
  cases h with
  | join span operator => exact operator.isArrow_join ..
  | _ => rfl

theorem isString_eq (h : IsBuilt e) : e.isString = false := by
  cases h with
  | join span operator => cases operator <;> rfl
  | _ => rfl

/-- Nothing that begins a statement of another kind is in front. -/
theorem startsLikeStatement_eq (h : IsBuilt e) : Node.startsLikeStatement e = false := by
  induction h with
  | join span operator _ _ ihl =>
    cases operator <;> exact ihl
  | update span operator before simple _ ih =>
    cases before
    · exact ih
    · rfl
  | @sequence span values many each ih =>
    obtain ⟨first, second, values, rfl⟩ := exists_cons_cons_of_two_le many
    exact ih first (List.mem_cons_self ..)
  | _ => first | rfl | assumption

/-- Items of a list, with their texts and words. -/
theorem exists_items {values : List Expression} (each : ∀ e ∈ values, IsBuilt e)
    (h : ∀ e ∈ values, ∀ p, ∃ text words, Phrase d σ p e (Node.layout e p) text words) :
    ∃ items : List Phrase.Item, items.map Phrase.Item.value = values ∧
      ∀ i ∈ items, i.IsPrinted d σ := by
  induction values with
  | nil => exact ⟨[], rfl, nofun⟩
  | cons e values ih =>
    obtain ⟨he, each⟩ := List.forall_mem_cons.mp each
    obtain ⟨hphrase, h⟩ := List.forall_mem_cons.mp h
    obtain ⟨text, words, hphrase⟩ := hphrase .assignment
    obtain ⟨items, rfl, hitems⟩ := ih each h
    exact ⟨⟨e, text, words⟩ :: items, rfl,
      List.forall_mem_cons.mpr ⟨⟨he.isArrow_eq, hphrase⟩, hitems⟩⟩

/-- Wherever the expression is laid out, it is a phrase of the strength that the place asks for. -/
theorem exists_phrase (hd : Answers options d) (hx : Decides d) (hσ : σ.inGenerator = false)
    (hstrict : σ.strict = false) (h : IsBuilt e) (p : Precedence) :
    ∃ text words, Phrase d σ p e (Node.layout e p) text words := by
  -- It is enough to lay out an expression for its own strength.
  have floor : ∀ {e : Expression} {text : List Char} {words : List Word}, IsBuilt e →
      Phrase d σ e.precedence e (Node.layout e .sequence) text words →
      ∀ p, ∃ text words, Phrase d σ p e (Node.layout e p) text words :=
    fun h hown p => hown.exists_floor hd hx hσ h.isArrow_eq p
  induction h generalizing p with
  | name ordinary => exact floor (.name ordinary) (.identifier hd ordinary) p
  | integer span hne digits =>
    exact floor (.integer span hne digits) (.integer hd span hne digits) p
  | this span => exact floor (.this span) (.this hd span) p
  | unary span operator h ih =>
    obtain ⟨_, _, hargument⟩ := ih .unary
    obtain ⟨_, hown⟩ := hargument.unary hd hstrict operator span h.isArrow_eq
    exact floor (.unary span operator h) hown p
  | update span operator before simple h ih =>
    cases before with
    | true =>
      obtain ⟨_, _, hargument⟩ := ih .unary
      exact floor (.update span operator true simple h)
        (hargument.update hd hstrict operator span h.isArrow_eq simple) p
    | false =>
      obtain ⟨_, _, hargument⟩ := ih .call
      exact floor (.update span operator false simple h)
        (hargument.trailing hd hstrict operator span h.isArrow_eq simple) p
  | join span operator hl hr ihl ihr =>
    obtain ⟨_, _, hleft⟩ := ihl operator.leftFloor
    obtain ⟨_, _, hright⟩ := ihr operator.rightFloor
    have hown := hleft.join hd operator span hl.isArrow_eq hr.isArrow_eq hright
    rw [← operator.layout_join span, ← operator.precedence_join span] at hown
    exact floor (.join span operator hl hr) hown p
  | conditional span ht hc ha iht ihc iha =>
    obtain ⟨_, _, htest⟩ := iht .logicalOr
    obtain ⟨_, _, hconsequent⟩ := ihc .assignment
    obtain ⟨_, _, halternate⟩ := iha .assignment
    exact floor (.conditional span ht hc ha) (htest.conditional hd hσ span ht.isArrow_eq
      hc.isArrow_eq ha.isArrow_eq hconsequent halternate) p
  | @assignName span operator id _ ht hv iht ihv =>
    obtain ⟨_, _, htarget⟩ := iht .call
    obtain ⟨_, _, hvalue⟩ := ihv .assignment
    have hsimple : IsSimple (.identifier id) := trivial
    exact floor (.assignName span operator ht hv) (htarget.assignment hd hσ hstrict operator span
      hsimple rfl ht.isArrow_eq hv.isArrow_eq hvalue) p
  | @assignMember span operator place target selector _ computed ht hv iht ihv =>
    obtain ⟨_, _, htarget⟩ := iht .call
    obtain ⟨_, _, hvalue⟩ := ihv .assignment
    have hsimple : IsSimple (.member place target selector computed) := trivial
    exact floor (.assignMember span operator ht hv) (htarget.assignment hd hσ hstrict operator span
      hsimple rfl ht.isArrow_eq hv.isArrow_eq hvalue) p
  | sequence span many each ih =>
    obtain ⟨items, rfl, hitems⟩ := exists_items each ih
    exact floor (.sequence span many each)
      (.sequence hd hσ hitems span (by rwa [List.length_map] at many)) p
  | call span hc each ihc ih =>
    obtain ⟨_, _, hcallee⟩ := ihc .call
    obtain ⟨items, rfl, hitems⟩ := exists_items each ih
    have hown := hcallee.call hd hc.isArrow_eq hσ span hitems
    have hbuilt := IsBuilt.call span hc each
    rw [List.map_map] at hbuilt ⊢
    exact floor hbuilt hown p
  | @new span callee _ hc each ihc ih =>
    obtain ⟨items, rfl, hitems⟩ := exists_items each ih
    have hbuilt := IsBuilt.new span hc each
    rw [List.map_map] at hbuilt ⊢
    have hlayout := layout_new span callee (.ofList (items.map fun i => .item i.value))
    cases hcall : callee.containsCall with
    | true =>
      obtain ⟨_, _, hinner⟩ := ihc .sequence
      have hcallee := hinner.parenthesized hd hx hσ hc.isArrow_eq .primary
      have hown := Phrase.new hd hσ hitems span (hcallee.of_le (by decide))
        (hcallee.callee_of_primary hc.isArrow_eq)
      rw [hcall, if_pos rfl] at hlayout
      rw [← hlayout] at hown
      exact floor hbuilt hown p
    | false =>
      obtain ⟨_, _, hcallee⟩ := ihc .call
      have hown := Phrase.new hd hσ hitems span hcallee (hcallee.callee hc.isArrow_eq hcall)
      rw [hcall, if_neg Bool.false_ne_true] at hlayout
      rw [← hlayout] at hown
      exact floor hbuilt hown p
  | @dot span target property ht ordinary iht =>
    have hlayout := layout_member span target (.identifier property) false
    cases hinteger : target.isInteger with
    | true =>
      obtain ⟨_, _, hinner⟩ := iht .sequence
      have htarget := hinner.parenthesized hd hx hσ ht.isArrow_eq .call
      have hown := htarget.dot hd ht.isArrow_eq span (spells_parentheses hinner.spells) ordinary
      rw [hinteger] at hlayout
      exact floor (.dot span ht ordinary) (hlayout ▸ hown) p
    | false =>
      obtain ⟨_, _, htarget⟩ := iht .call
      have hown := htarget.dot hd ht.isArrow_eq span
        (htarget.spells_point (Nat.le_refl _) hinteger) ordinary
      rw [hinteger] at hlayout
      exact floor (.dot span ht ordinary) (hlayout ▸ hown) p
  | @bracket span target property ht hp iht ihp =>
    have hlayout := layout_member span target property true
    obtain ⟨_, _, htarget⟩ := iht .call
    obtain ⟨_, _, hproperty⟩ := ihp .sequence
    have hown := htarget.bracket hd ht.isArrow_eq hσ span hp.isArrow_eq hproperty
    rw [Bool.not_true, Bool.and_false] at hlayout
    exact floor (.bracket span ht hp) (hlayout ▸ hown) p
  | array span each ih =>
    obtain ⟨items, rfl, hitems⟩ := exists_items each ih
    have hbuilt := IsBuilt.array span each
    rw [List.map_map] at hbuilt ⊢
    exact floor hbuilt (.array hd hσ hitems span) p

/-- An expression statement, as it is printed, is laid out without parentheses around it. -/
theorem layout_expressionStatement (h : IsBuilt e) (span : Span) :
    Node.layout (Node.expressionStatement span e none) =
      (Node.layout e .sequence ++ [.text ";"] : List Piece) := by
  change (if (Option.isNone none && e.isString) || e.startsLikeStatement
    then Layout.parenthesized (Node.layout e .sequence)
    else Node.layout e .sequence) ++ [Piece.text ";"] = _
  rw [h.isString_eq, h.startsLikeStatement_eq]
  rfl

end IsBuilt

/-- A printed expression statement is read as a program of one statement, with the expression that
was printed. -/
theorem parse_printStatement {options : ParseOptions} (sloppy : options.initialStrict = false)
    {e : Expression} (h : IsBuilt e) (span : Span) (p : Printer) :
    ∃ file span' e',
      (parse options (p.printStatement (.expressionStatement span e none)).1.toList).result =
        .ok file ∧
      file.program.body = .ofList [.expressionStatement span' e' none] ∧ e'.erase = e.erase := by
  have hd : Answers options (descend options) := answers_descend
  have hscope : Scope.strict ⟨options.initialStrict, false, false, []⟩ = false := sloppy
  obtain ⟨text, words, hphrase⟩ := h.exists_phrase hd decides_descend rfl hscope .sequence
  have hprint : (p.printStatement (.expressionStatement span e none)).1.toList = text ++ [';'] := by
    have hlays := hphrase.lays.append (lays_text ";")
    rw [← h.layout_expressionStatement span] at hlays
    exact (congrArg String.toList (p.print_of_lays hlays)).trans String.toList_ofList
  have hwritten : TokenStream.Written .initial .eof (text ++ [';']) (words ++ [.semi]) := by
    refine hphrase.spells [.braceStatement] true .eof [';'] [.semi] ⟨nofun, nofun⟩ rfl
      (by simp [Separates]; decide) fun k _ => ?_
    have hsemi : Word.semi.IsRead false [] :=
      Word.isRead_closed (by decide) (by decide) (by decide) (by decide)
    exact .joiner (w := .semi) ⟨nofun, nofun⟩ rfl hsemi fun _ => .done
  obtain ⟨stream, hread, hshows, -⟩ := TokenStream.exists_shows_of_text hwritten
  rw [hprint]
  exact parse_of_expression (hphrase.expression hd rfl h.isArrow_eq) hphrase.opens.kind
    hphrase.opens.not_let h.isString_eq hread hshows hphrase.not_arrow

/-- The expression `(- -a) ** --b, new (f())((1).x = [this, a ? b : f][a in b])`. -/
def crowded : Expression :=
  let name (n : String) : Expression := .identifier ⟨default, n⟩
  let one : Expression :=
    .literal ⟨default, .number (Decimal.nearest (Decimal.naturalOf "1".toList) 0), "1"⟩
  let signed : Expression := .unary default .minus (.unary default .minus (name "a"))
  let power : Expression := .binary default .exp signed (.update default .decrement true (name "b"))
  let array : Expression := .array default
    (.ofHoleyList [some (.item (.this default)),
      some (.item (.conditional default (name "a") (name "b") (name "f")))])
  let value : Expression := .member default array (.binary default .in (name "a") (name "b")) true
  let assigned : Expression :=
    .assignment default .assign (.memberPattern default one (name "x") false) value
  let made : Expression :=
    .new default (.call default (name "f") (.ofList [])) (.ofList [.item assigned])
  .sequence default (.ofList [power, made])

theorem isBuilt_crowded : IsBuilt crowded := by
  have hname : ∀ n ∈ ["a", "b", "f", "x"], IsOrdinaryName n := by
    simp only [List.forall_mem_cons, List.not_mem_nil, false_imp_iff, implies_true, and_true]
    refine ⟨?_, ?_, ?_, ?_⟩ <;>
      exact ⟨⟨_, [], rfl, by decide, nofun⟩, by decide, by decide, by decide⟩
  have ha : IsBuilt (.identifier ⟨default, "a"⟩) := .name (hname _ (by decide))
  have hb : IsBuilt (.identifier ⟨default, "b"⟩) := .name (hname _ (by decide))
  have hf : IsBuilt (.identifier ⟨default, "f"⟩) := .name (hname _ (by decide))
  have hsimple : IsSimple (.identifier ⟨default, "b"⟩) := trivial
  have hone : IsBuilt (.literal
      ⟨default, .number (Decimal.nearest (Decimal.naturalOf "1".toList) 0), "1"⟩) :=
    .integer default (by decide) (List.all_eq_true.mp (by decide))
  have hsigned := (ha.unary default .minus).unary default .minus
  have hpower := hsigned.join default (.binary .exp) 
    (hb.update default .decrement true hsimple)
  have hchoice := ha.conditional default hb hf
  have harray := IsBuilt.array default
    (List.forall_mem_cons.mpr ⟨.this default, List.forall_mem_singleton.mpr hchoice⟩)
  have hvalue := harray.bracket default (ha.join default (.binary .in) hb)
  have htarget : IsBuilt (.member default _ (.identifier ⟨default, "x"⟩) false) :=
    hone.dot default (hname _ (by decide))
  have hassigned := htarget.assignMember default .assign hvalue
  have hnone : ∀ e ∈ ([] : List Expression), IsBuilt e := nofun
  have hmade := (hf.call default hnone).new default (List.forall_mem_singleton.mpr hassigned)
  exact .sequence default (by decide)
    (List.forall_mem_cons.mpr ⟨hpower, List.forall_mem_singleton.mpr hmade⟩)

/-- Signs that would run together, a call in a callee and a number before a point are kept apart. -/
theorem parse_printStatement_crowded :
    (Printer.fresh.printStatement (.expressionStatement default crowded none)).1 =
        "(- -a) ** --b, new (f())((1).x = [this, a ? b : f][a in b]);" ∧
      ∃ file span e', (parse {}
          "(- -a) ** --b, new (f())((1).x = [this, a ? b : f][a in b]);".toList).result =
          .ok file ∧
        file.program.body = .ofList [.expressionStatement span e' none] ∧
        e'.erase = crowded.erase := by
  have htext : (Printer.fresh.printStatement (.expressionStatement default crowded none)).1 =
      "(- -a) ** --b, new (f())((1).x = [this, a ? b : f][a in b]);" := by
    decide +kernel
  have sloppy : ParseOptions.initialStrict {} = false := rfl
  have hparse := parse_printStatement sloppy isBuilt_crowded default Printer.fresh
  rw [htext] at hparse
  exact ⟨htext, hparse⟩

end EcmaTree
