import EcmaTree.Proofs.Print.Lays

/-!
# Indentation is left as it was found

Blocks, and branches that get braces of their own, indent what is in them, at whatever depth and
also within the function bodies of expressions. Behind each of them the level is the one before it,
so what is written behind a statement does not depend on the statement, and a file is printed as
its statements are.
-/

namespace EcmaTree

open Layout

namespace SourceWriter

/-- The writer with its text taken out. -/
def emptied (w : SourceWriter) : SourceWriter :=
  { w with output := "" }

/-- What a piece adds to the text, and what becomes of the line, does not depend on the text. -/
theorem put_emptied (piece : Piece) (w : SourceWriter) :
    (w.put piece).output = w.output ++ (w.emptied.put piece).output ∧
      (w.put piece).emptied = (w.emptied.put piece).emptied := by
  cases piece with
  | text s =>
    by_cases hs : s = ""
    · simp [put, write, emptied, hs]
    · obtain ⟨output, level, atLineStart⟩ := w
      cases atLineStart <;> simp [put, write, emptied, hs, String.append_assoc]
  | line => simp [put, line, emptied]
  | indent => simp [put, indent, emptied]
  | dedent => simp [put, dedent, emptied]

theorem putAll_emptied (pieces : List Piece) (w : SourceWriter) :
    (w.putAll pieces).output = w.output ++ (w.emptied.putAll pieces).output := by
  induction pieces generalizing w with
  | nil => simp [putAll, emptied]
  | cons piece pieces ih =>
    obtain ⟨houtput, hemptied⟩ := put_emptied piece w
    change ((w.put piece).putAll pieces).output =
      w.output ++ ((w.emptied.put piece).putAll pieces).output
    rw [ih (w.put piece), ih (w.emptied.put piece), houtput, hemptied, String.append_assoc]

/-- The level behind the pieces depends on nothing but the level before them. -/
theorem indentLevel_putAll_congr {w v : SourceWriter} (h : w.indentLevel = v.indentLevel)
    (pieces : List Piece) : (w.putAll pieces).indentLevel = (v.putAll pieces).indentLevel := by
  induction pieces generalizing w v with
  | nil => exact h
  | cons piece pieces ih =>
    refine ih ?_
    cases piece with
    | text s =>
      simp only [put, write]
      split
      · exact h
      · split <;> split <;> exact h
    | line => exact h
    | indent => exact congrArg (· + 1) h
    | dedent => exact congrArg (· - 1) h

end SourceWriter

/-- Writing the pieces leaves the level of indentation as it was. -/
def Steady (pieces : List Piece) : Prop :=
  ∀ w : SourceWriter, (w.putAll pieces).indentLevel = w.indentLevel

variable {pieces more : List Piece}

theorem steady_nil : Steady [] :=
  fun _ => rfl

theorem Steady.append (h : Steady pieces) (hmore : Steady more) : Steady (pieces ++ more) := by
  intro w
  rw [SourceWriter.putAll_append, hmore, h]

theorem Steady.of_append (h : Steady pieces) (hall : Steady (pieces ++ more)) : Steady more := by
  intro w
  have hlevel := hall w
  rw [SourceWriter.putAll_append] at hlevel
  exact (SourceWriter.indentLevel_putAll_congr (h w) more).symm.trans hlevel

theorem Steady.text (s : String) (h : Steady pieces) : Steady (.text s :: pieces) := by
  intro w
  change ((w.write s).putAll pieces).indentLevel = _
  rw [h, SourceWriter.write]
  split
  · rfl
  · split <;> rfl

theorem Steady.line (h : Steady pieces) : Steady (.line :: pieces) :=
  fun w => h w.line

theorem steady_text (s : String) : Steady [.text s] :=
  .text s steady_nil

/-- What is indented and then no more so stands at the same level as before. -/
theorem Steady.indented (h : Steady pieces) : Steady (.indent :: (pieces ++ [.dedent])) := by
  intro w
  change ((w.indent.putAll (pieces ++ [.dedent]))).indentLevel = _
  rw [SourceWriter.putAll_append]
  change (w.indent.putAll pieces).indentLevel - 1 = _
  rw [h]
  exact Nat.add_sub_cancel _ _

section Lists

theorem steady_flatMap {α : Type} {items : List α} {f : α → List Piece}
    (each : ∀ i ∈ items, Steady (f i)) : Steady (items.flatMap f) := by
  induction items with
  | nil => exact steady_nil
  | cons i items ih =>
    obtain ⟨hi, each⟩ := List.forall_mem_cons.mp each
    exact hi.append (ih each)

theorem steady_commaSeparated {items : List (List Piece)} (each : ∀ i ∈ items, Steady i) :
    Steady (commaSeparated items) := by
  cases items with
  | nil => exact steady_nil
  | cons first items =>
    obtain ⟨hfirst, each⟩ := List.forall_mem_cons.mp each
    have heq := commaSeparated_cons (f := id) first items
    rw [List.map_id] at heq
    rw [heq]
    exact hfirst.append (steady_flatMap fun i hi => .text ", " (each i hi))

theorem steady_getD {part : Option (List Piece)} (each : ∀ x ∈ part, Steady x) :
    Steady (part.getD []) := by
  cases part with
  | none => exact steady_nil
  | some x => exact each x rfl

theorem steady_holeyRest {items : List (Option (List Piece))}
    (each : ∀ i, some i ∈ items → Steady i) : Steady (holeyRest items) := by
  induction items with
  | nil => exact steady_nil
  | cons first items ih =>
    have hrest := ih fun i hi => each i (List.mem_cons_of_mem _ hi)
    cases first with
    | none => exact .text "," hrest
    | some item => exact .text "," (.text " " ((each item List.mem_cons_self).append hrest))

theorem steady_holeyList {items : List (Option (List Piece))}
    (each : ∀ i, some i ∈ items → Steady i) : Steady (holeyList items) := by
  cases items with
  | nil => exact steady_nil
  | cons first items =>
    have hfirst := steady_getD fun i hi => each i (hi ▸ List.mem_cons_self)
    have hrest := steady_holeyRest fun i hi => each i (List.mem_cons_of_mem _ hi)
    refine (hfirst.append hrest).append ?_
    split
    · exact steady_text ","
    · exact steady_nil

theorem steady_lines {statements : List (List Piece)} (each : ∀ s ∈ statements, Steady s) :
    Steady (lines statements) :=
  steady_flatMap fun s hs => (each s hs).append (.line steady_nil)

theorem steady_chunks (quasis : List TemplateElement) {expressions : List (List Piece)}
    (each : ∀ e ∈ expressions, Steady e) : Steady (chunks quasis expressions) := by
  induction quasis generalizing expressions with
  | nil => exact steady_nil
  | cons quasi quasis ih =>
    cases expressions with
    | nil => exact .text _ (ih nofun)
    | cons e expressions =>
      obtain ⟨he, each⟩ := List.forall_mem_cons.mp each
      exact .text _ (.text _ (he.append (.text _ (ih each))))

end Lists

section Parts

theorem Steady.parenthesized (h : Steady pieces) : Steady (parenthesized pieces) :=
  .text "(" (h.append (steady_text ")"))

theorem Steady.guarded (e : Expression) (h : Steady pieces) (floor : Precedence) :
    Steady (guarded e pieces floor) := by
  unfold Layout.guarded
  split
  · exact h.parenthesized
  · exact h

theorem steady_braced {members : List (List Piece)} (each : ∀ m ∈ members, Steady m) :
    Steady (braced members) := by
  unfold braced
  split
  · exact steady_text _
  · exact .text _ ((steady_commaSeparated each).append (steady_text _))

theorem steady_blockOf {statements : List (List Piece)} (each : ∀ s ∈ statements, Steady s) :
    Steady (blockOf statements) := by
  unfold blockOf
  split
  · exact steady_text _
  · have hbody := (steady_lines each).indented.append (steady_text "\x7d")
    simpa using (hbody.line).text "\x7b"

theorem steady_following (lead : String) {part : Option (List Piece)}
    (each : ∀ x ∈ part, Steady x) : Steady (following lead part) := by
  cases part with
  | none => exact steady_nil
  | some x => exact .text lead (each x rfl)

theorem steady_labelName (label : Option Identifier) : Steady (labelName label) := by
  refine steady_following " " fun x hx => ?_
  obtain ⟨id, -, rfl⟩ := Option.map_eq_some_iff.mp hx
  exact steady_text _

theorem steady_functionWord (id : Option Identifier) (generator : Bool) :
    Steady (functionWord id generator) := by
  cases id with
  | some id => exact .text _ (.text " " (steady_text _))
  | none =>
    cases generator with
    | true => exact steady_text _
    | false => exact .text _ (steady_text " ")

theorem steady_methodMark (kind : PropertyKind) (generator : Bool) :
    Steady (methodMark kind generator) := by
  cases kind with
  | init =>
    cases generator with
    | true => exact steady_text "*"
    | false => exact steady_nil
  | get => exact steady_text _
  | set => exact steady_text _

theorem steady_between (operator : String) (h : Steady pieces) (hmore : Steady more) :
    Steady (between operator pieces more) :=
  (h.append (.text " " (.text operator (steady_text " ")))).append hmore

theorem steady_access (target : Expression) (computed : Bool)
    {inner property : Precedence → List Piece} (hinner : ∀ p, Steady (inner p))
    (hproperty : ∀ p, Steady (property p)) : Steady (access target computed inner property) := by
  refine Steady.append ?_ ?_
  · split
    · exact (hinner _).parenthesized
    · exact hinner _
  · split
    · exact .text _ ((hproperty _).append (steady_text _))
    · exact .text _ (hproperty _)

theorem steady_plainProperty (shorthand : Bool) {key value : List Piece} (hkey : Steady key)
    (hvalue : Steady value) : Steady (plainProperty key value shorthand) := by
  cases shorthand with
  | true => exact hvalue
  | false => exact hkey.append (.text _ hvalue)

theorem steady_withoutIn (e : Expression) {inner : Precedence → List Piece}
    (h : ∀ p, Steady (inner p)) (floor : Precedence) : Steady (withoutIn e inner floor) := by
  unfold withoutIn
  split
  · exact (h _).parenthesized
  · exact h _

/-- The braces that a branch before an `else` may get indent it as a block does. -/
theorem steady_beforeElse (branch : Statement) (h : Steady pieces) :
    Steady (beforeElse branch pieces) := by
  unfold beforeElse
  split
  · have hbody := (h.append (.line steady_nil)).indented.append (steady_text "\x7d")
    simpa using (hbody.line).text " \x7b"
  · exact h.text " "

end Parts

/-- Whatever strength is asked for, and wherever a declaration stands, the layout keeps the level of
indentation. -/
def KeepsLevel : (c : Category) → Layout c → Prop
  | .expression, l => ∀ floor, Steady (l floor)
  | .declaration, l | .declarator, l => ∀ noIn, Steady (l noIn)
  | .list c, ls => ∀ l ∈ ls, KeepsLevel c l
  | .option c, l => ∀ x ∈ l, KeepsLevel c x
  | .element, l | .member, l | .key, l | .pattern, l | .patternMember, l | .block, l | .body, l
  | .statement, l | .forInit, l | .forTarget, l | .handler, l => Steady l

variable {c : Category}

theorem keepsLevel_map {f : Layout c → List Piece} {ls : Layout (.list c)}
    (h : KeepsLevel (.list c) ls) (hf : ∀ l, KeepsLevel c l → Steady (f l)) :
    ∀ pieces ∈ (ls : List (Layout c)).map f, Steady pieces := by
  intro pieces hpieces
  obtain ⟨l, hl, rfl⟩ := List.mem_map.mp hpieces
  exact hf l (h l hl)

theorem keepsLevel_option {f : Layout c → List Piece} {l : Layout (.option c)}
    (h : KeepsLevel (.option c) l) (hf : ∀ l, KeepsLevel c l → Steady (f l)) :
    ∀ pieces ∈ (l : Option (Layout c)).map f, Steady pieces := by
  intro pieces hpieces
  obtain ⟨x, hx, rfl⟩ := Option.map_eq_some_iff.mp hpieces
  exact hf x (h x hx)

/-- By induction on the node: one case for each form. -/
theorem keepsLevel_layout (n : Node c) : KeepsLevel c n.layout := by
  induction n with
  | identifier id => exact (steady_text id.name).guarded _
  | literal lit => exact (steady_text lit.raw).guarded _
  | this span => exact (steady_text "this").guarded _
  | array span elements ih =>
    exact Steady.guarded _ (.text "[" ((steady_holeyList fun i hi => ih _ hi i rfl).append
      (steady_text "]")))
  | object span members ih => exact (steady_braced ih).guarded _
  | function span id params body generator ihp ihb =>
    exact Steady.guarded _ (((steady_functionWord id generator).append
      (steady_commaSeparated ihp).parenthesized).append (.text " " ihb))
  | arrow span params body ihp ihb =>
    exact Steady.guarded _ ((steady_commaSeparated ihp).parenthesized.append (.text " => " ihb))
  | template span quasis expressions ih =>
    have hchunks := steady_chunks quasis
      (keepsLevel_map ih fun l hl => hl .sequence)
    exact Steady.guarded _ (.text _ (hchunks.append (steady_text _)))
  | unary span operator argument ih =>
    refine Steady.guarded _ (.text operator.spelling (Steady.append ?_ (ih _)))
    split
    · exact steady_text " "
    · exact steady_nil
  | update span operator before argument ih =>
    cases before with
    | true => exact Steady.guarded _ (.text operator.spelling (ih _))
    | false => exact Steady.guarded _ ((ih _).append (steady_text operator.spelling))
  | binary span operator left right ihl ihr =>
    cases operator <;> exact Steady.guarded _ (steady_between _ (ihl _) (ihr _))
  | logical span operator left right ihl ihr =>
    exact Steady.guarded _ (steady_between _ (ihl _) (ihr _))
  | assignment span operator target value iht ihv =>
    exact Steady.guarded _ (steady_between _ iht (ihv _))
  | conditional span test consequent alternate iht ihc iha =>
    exact Steady.guarded _ (((iht _).append (.text " ? " (ihc _))).append (.text " : " (iha _)))
  | call span callee arguments ihc iha =>
    exact Steady.guarded _ ((ihc _).append (steady_commaSeparated iha).parenthesized)
  | new span callee arguments ihc iha =>
    refine Steady.guarded _ (.text "new " (Steady.append ?_
      (steady_commaSeparated iha).parenthesized))
    split
    · exact (ihc _).parenthesized
    · exact ihc _
  | member span target selector computed iht ihs =>
    exact Steady.guarded _ (steady_access target computed iht ihs)
  | sequence span expressions ih =>
    exact Steady.guarded _ (steady_commaSeparated (keepsLevel_map ih fun l hl => hl .assignment))
  | yield span argument delegate ih =>
    exact Steady.guarded _ (.text _ (steady_following " "
      (keepsLevel_option ih fun l hl => hl .assignment)))
  | item value ih => exact ih _
  | spread span argument ih | spreadMember span argument ih | spreadPattern span argument ih =>
    exact Steady.text "..." (ih _)
  | rest span argument ih | restPattern span argument ih | restMember span argument ih =>
    exact Steady.text "..." ih
  | property span key value kind method shorthand ihk ihv =>
    have hplain := steady_plainProperty shorthand ihk (ihv .assignment)
    cases value with
    | function place id params body generator =>
      have hfunction : Steady (functionWord id generator ++ parameters params.layout ++
          .text " " :: body.layout) := ihv .sequence
      rw [List.append_assoc] at hfunction
      have hsignature := (steady_functionWord id generator).of_append hfunction
      change Steady (if _ then _ else _)
      split
      · rw [List.append_assoc]
        exact ((steady_methodMark kind generator).append ihk).append hsignature
      · exact hplain
    | _ => exact hplain
  | nameKey id | literalKey lit | namePattern id => exact steady_text _
  | computedKey value ih => exact Steady.text "[" ((ih _).append (steady_text "]"))
  | objectPattern span members ih => exact steady_braced ih
  | arrayPattern span elements ih =>
    exact Steady.text "[" ((steady_holeyList fun i hi => ih _ hi i rfl).append (steady_text "]"))
  | defaultPattern span target value iht ihv => exact iht.append (.text " = " (ihv _))
  | memberPattern span target selector computed iht ihs =>
    exact steady_access target computed iht ihs
  | propertyPattern span key value shorthand ihk ihv => exact steady_plainProperty _ ihk ihv
  | block span body ih => exact steady_blockOf ih
  | blockBody b ih | blockStatement b ih => exact ih
  | conciseBody value ih =>
    change Steady (if _ then _ else _)
    split
    · exact (ih _).parenthesized
    · exact ih _
  | expressionStatement span value directive ih =>
    refine Steady.append ?_ (steady_text ";")
    split
    · exact (ih _).parenthesized
    · exact ih _
  | emptyStatement span => exact steady_text ";"
  | declarationStatement d ih => exact (ih _).append (steady_text ";")
  | functionDeclaration span id params body generator ihp ihb =>
    exact ((steady_functionWord id generator).append
      (steady_commaSeparated ihp).parenthesized).append (.text " " ihb)
  | returnStatement span argument ih =>
    exact (Steady.text "return" (steady_following " "
      (keepsLevel_option ih fun l hl => hl .sequence))).append (steady_text ";")
  | ifStatement span test consequent alternate iht ihc iha =>
    cases alternate with
    | absent =>
      exact Steady.text "if (" ((iht _).append (.text ")" (.text " " ihc)))
    | present alternate =>
      have hbranch := Steady.text ")" (steady_beforeElse consequent ihc)
      exact Steady.text "if (" (((iht _).append hbranch).append
        (.text " else" (.text " " (iha _ rfl))))
  | forStatement span init test step body ihi iht ihs ihb =>
    have htest := steady_following " " (keepsLevel_option iht fun l hl => hl .sequence)
    have hstep := steady_following " " (keepsLevel_option ihs fun l hl => hl .sequence)
    have hhead := ((steady_getD ihi).append (.text ";" htest)).append (.text ";" hstep)
    exact Steady.text "for (" (hhead.append (.text ")" (.text " " ihb)))
  | forInStatement span left right body ihl ihr ihb =>
    exact Steady.text "for (" ((ihl.append (.text " in " (ihr _))).append
      (.text ")" (.text " " ihb)))
  | forOfStatement span left right body ihl ihr ihb =>
    exact Steady.text "for (" ((ihl.append (.text " of " (ihr _))).append
      (.text ")" (.text " " ihb)))
  | whileStatement span test body iht ihb =>
    exact Steady.text "while (" ((iht _).append (.text ")" (.text " " ihb)))
  | breakStatement span label =>
    exact Steady.text "break" ((steady_labelName label).append (steady_text ";"))
  | continueStatement span label =>
    exact Steady.text "continue" ((steady_labelName label).append (steady_text ";"))
  | labeledStatement span label body ih =>
    exact Steady.text label.name (.text ":" (.text " " ih))
  | throwStatement span argument ih =>
    exact Steady.text "throw " ((ih _).append (steady_text ";"))
  | tryStatement span b clause finalizer ihb ihc ihf =>
    exact Steady.text "try " ((ihb.append (steady_getD ihc)).append
      (steady_following " finally " ihf))
  | declaration span kind declarators ih =>
    intro noIn
    exact Steady.text kind.word (.text " " (steady_commaSeparated
      (keepsLevel_map ih fun l hl => hl noIn)))
  | declarator span target init iht ihi =>
    intro noIn
    cases init with
    | absent => exact iht
    | present value =>
      have hvalue : ∀ floor, Steady (value.layout floor) := ihi _ rfl
      refine Steady.append iht (.text " = " ?_)
      split
      · exact steady_withoutIn value hvalue _
      · exact hvalue _
  | initDeclaration d ih | targetDeclaration d ih => exact ih _
  | initExpression value ih => exact steady_withoutIn value ih _
  | targetPattern pattern ih => exact ih
  | handler span param body ihp ihb => exact Steady.text " catch (" (ihp.append (.text ") " ihb))
  | nil => exact nofun
  | cons head tail ihh iht => exact List.forall_mem_cons.mpr ⟨ihh, iht⟩
  | absent => exact nofun
  | present value ih =>
    rintro x ⟨⟩
    exact ih

/-- On a fresh line without indentation, statements that keep the level are written as each of them
is by itself. -/
theorem output_putAll_lines {statements : List (List Piece)} (each : ∀ s ∈ statements, Steady s)
    {w : SourceWriter} (hlevel : w.indentLevel = 0) (hline : w.atLineStart = true) :
    (w.putAll (lines statements)).output =
      w.output ++ String.join (statements.map fun s =>
        (SourceWriter.empty.putAll s).output ++ "\n") := by
  induction statements generalizing w with
  | nil => exact (String.append_empty).symm
  | cons s statements ih =>
    obtain ⟨hs, each⟩ := List.forall_mem_cons.mp each
    have hfirst : (w.putAll s).output = w.output ++ (SourceWriter.empty.putAll s).output := by
      rw [SourceWriter.putAll_emptied]
      simp [SourceWriter.emptied, SourceWriter.empty, hlevel, hline]
    have hrest := ih each (w := (w.putAll s).line) ((hs w).trans hlevel) rfl
    change ((w.putAll ((s ++ [.line]) ++ lines statements))).output = _
    rw [SourceWriter.putAll_append, SourceWriter.putAll_append]
    refine hrest.trans ?_
    change (w.putAll s).output ++ "\n" ++ _ = _
    rw [hfirst, List.map_cons, String.join_cons]
    simp only [String.append_assoc]

/-- The texts of statements that are printed one after the other with the same printer, each with a
line break behind it. -/
def Printer.printEach (p : Printer) : List Statement → String
  | [] => ""
  | s :: statements =>
    let (text, p) := p.printStatement s
    text ++ "\n" ++ p.printEach statements

theorem Printer.printEach_eq_join (p : Printer) (statements : List Statement) :
    p.printEach statements = String.join (statements.map fun s =>
      (SourceWriter.empty.putAll s.layout).output ++ "\n") := by
  induction statements generalizing p with
  | nil => rfl
  | cons s statements ih =>
    rw [List.map_cons, String.join_cons, ← ih (p.printStatement s).2]
    rfl

/-- Whatever both printers have been used for, a file is printed as its statements are, one after
the other with a line break behind each. No statement, whatever is nested in it, changes the level
of indentation that it is written at. -/
theorem printFile_eq_printEach (p q : Printer) (file : File) :
    (p.printFile file).1 = q.printEach file.program.body.toList ∧
      ∀ (s : Statement) (w : SourceWriter), (w.putAll s.layout).indentLevel = w.indentLevel := by
  refine ⟨?_, fun s => keepsLevel_layout s⟩
  have hlayout : file.program.body.layout = file.program.body.toList.map Node.layout := by
    rw [← layout_ofList, Node.ofList_toList]
  have each : ∀ s ∈ file.program.body.toList.map Node.layout, Steady s := by
    rw [← hlayout]
    exact keepsLevel_layout file.program.body
  have hlines := output_putAll_lines each (w := SourceWriter.empty) rfl rfl
  rw [List.map_map, ← hlayout] at hlines
  rw [Printer.printEach_eq_join]
  exact hlines.trans String.empty_append

end EcmaTree
