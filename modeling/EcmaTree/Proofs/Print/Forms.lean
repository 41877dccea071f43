import EcmaTree.Proofs.Print.Phrase

/-!
# Printed forms

One lemma for each form of expression: if the parts are printed phrases for the strengths that the
layout asks of them, the whole is a printed phrase for its own strength.
-/

namespace EcmaTree

open EcmaTree.Parser EcmaTree.Grammar EcmaTree.Reading EcmaTree.Layout

namespace InfixOperator

/-- How tightly the expression of an operator binds. -/
def precedence : InfixOperator → Precedence
  | logical operator => .ofLogical operator
  | binary operator => .ofBinary operator

/-- The strength that the layout asks of the left operand. -/
def leftFloor (operator : InfixOperator) : Precedence :=
  if operator = .binary .exp then .trailing else operator.precedence

/-- The strength that the layout asks of the right operand. -/
def rightFloor (operator : InfixOperator) : Precedence :=
  if operator = .binary .exp then .exponent else operator.precedence.tighter

/-- The two tables of strengths agree, and the layout asks for no less than the grammar. -/
theorem strength_le_rank (operator : InfixOperator) :
    operator.precedence.rank = operator.strength + 2 ∧
      operator.leftLevel + 2 ≤ operator.leftFloor.rank ∧
      operator.rightLevel + 2 ≤ operator.rightFloor.rank := by
  cases operator with
  | logical operator => cases operator <;> decide
  | binary operator => cases operator <;> decide

theorem precedence_lt_unary (operator : InfixOperator) :
    operator.precedence.rank < Precedence.unary.rank := by
  cases operator with
  | logical operator => cases operator <;> decide
  | binary operator => cases operator <;> decide

theorem readsAt_precedence {d : Descent} {σ : Scope} {operator : InfixOperator}
    {words : List Word} {e : Expression}
    (h : ReadsOperators d σ false operator.strength words e) :
    ReadsAt d σ operator.precedence words e := by
  cases operator with
  | logical operator => cases operator <;> exact h
  | binary operator => cases operator <;> exact h

theorem layout_join (operator : InfixOperator) (span : Span) (left right : Expression) :
    Node.layout (operator.join span left right) .sequence =
      between operator.spelling (Node.layout left operator.leftFloor)
        (Node.layout right operator.rightFloor) := by
  cases operator with
  | logical operator => cases operator <;> rfl
  | binary operator => cases operator <;> rfl

theorem precedence_join (operator : InfixOperator) (span : Span) (left right : Expression) :
    (operator.join span left right).precedence = operator.precedence := by
  cases operator <;> rfl

end InfixOperator

namespace Phrase

variable {d : Descent} {σ : Scope} {options : ParseOptions} {pieces : List Piece}
  {text : List Char} {words : List Word}

/-! ### Operands -/

section Operands

variable (hd : Answers options d)

theorem isPlainStart_of_identifierStart {c : Char} (h : isIdentifierStart c = true) :
    IsPlainStart c := by
  refine ⟨?_, ?_, ?_⟩ <;> rintro rfl <;> exact absurd h (by decide)

theorem isPlainStart_of_digit {c : Char} (h : isDecimalDigit c = true) : IsPlainStart c := by
  refine ⟨?_, ?_, ?_⟩ <;> rintro rfl <;> exact absurd h (by decide)

include hd

theorem identifier {id : Identifier} (h : IsOrdinaryName id.name) :
    Phrase d σ .primary (.identifier id) [.text id.name] id.name.toList [.name id.name] where
  lays := lays_text id.name
  spells := (spells_name h).weaken
  spells_point _ _ := spells_name h
  opens := by
    obtain ⟨c, more, htext, hstart, -⟩ := h.letters
    rw [htext]
    refine .of_plain rfl (fun _ hlet => h.not_let ?_) (isPlainStart_of_identifierStart hstart) _ _ _
    exact Option.some.inj hlet
  not_arrow := List.forall_mem_singleton.mpr nofun
  reads := ⟨.primary, Nat.le_refl _, readsPrimary_identifier hd id.span id.name⟩

theorem this (span : Span) :
    Phrase d σ .primary (.this span) [.text "this"] "this".toList [.keyword .this] where
  lays := lays_text "this"
  spells := spells_this.weaken
  spells_point _ _ := spells_this
  opens := .of_plain rfl (w := .keyword .this) nofun (by decide) _ _ _
  not_arrow := List.forall_mem_singleton.mpr nofun
  reads := ⟨.primary, Nat.le_refl _, readsPrimary_this hd span⟩

theorem integer (span : Span) {raw : String} (hne : raw.toList ≠ [])
    (hdigits : ∀ c ∈ raw.toList, isDecimalDigit c = true) :
    Phrase d σ .primary
      (.literal ⟨span, .number (Decimal.nearest (Decimal.naturalOf raw.toList) 0), raw⟩)
      [.text raw] raw.toList [.integer raw] where
  lays := lays_text raw
  spells := spells_integer hne hdigits
  spells_point _ hinteger := by
    refine absurd ?_ (Bool.eq_false_iff.mp hinteger)
    exact List.all_eq_true.mpr hdigits
  opens := by
    obtain ⟨c, more, htext⟩ := List.exists_cons_of_ne_nil hne
    rw [htext]
    refine .of_plain rfl (w := .integer raw) nofun (isPlainStart_of_digit (hdigits c ?_)) _ _ _
    exact htext ▸ List.mem_cons_self ..
  not_arrow := List.forall_mem_singleton.mpr nofun
  reads := ⟨.primary, Nat.le_refl _, readsPrimary_integer hd span raw⟩

end Operands

/-! ### Lists -/

section Lists

/-- An item of a list with its text and its words. -/
structure Item where
  value : Expression
  text : List Char
  words : List Word

/-- The item is printed as one of a list. -/
structure Item.IsPrinted (d : Descent) (σ : Scope) (i : Item) : Prop where
  not_isArrow : i.value.isArrow = false
  phrase : Phrase d σ .assignment i.value (Node.layout i.value .assignment) i.text i.words

variable {items : List Item} (each : ∀ i ∈ items, i.IsPrinted d σ)

include each

theorem spells_items : ∀ i ∈ items.map fun i => (i.text, i.words), Spells false i.1 i.2 :=
  List.forall_mem_map.mpr fun i hi => (each i hi).phrase.spells

theorem reads_items (hd : Answers options d) (hσ : σ.inGenerator = false) :
    ∀ i ∈ items.map fun i => (i.words, i.value), ReadsItem d σ i.1 i.2 :=
  List.forall_mem_map.mpr fun i hi => (each i hi).phrase.item hd hσ (each i hi).not_isArrow

theorem lays_items : ∀ i ∈ items, Lays (Node.layout i.value .assignment) i.text :=
  fun i hi => (each i hi).phrase.lays

theorem not_arrow_items : ∀ w ∈ commaBetween (items.map Item.words), w.kind ≠ .arrow := by
  intro w hw
  rcases eq_comma_or_of_mem_commaBetween hw with rfl | ⟨words, hwords, hw⟩
  · nofun
  · obtain ⟨i, hi, rfl⟩ := List.mem_map.mp hwords
    exact (each i hi).phrase.not_arrow w hw

/-- Arguments are laid out as a list in parentheses. -/
theorem lays_arguments :
    Lays (Layout.parenthesized (commaSeparated
        (Node.layout (.ofList (items.map fun i => .item i.value)))))
      ('(' :: (spacedBetween (items.map Item.text) ++ [')'])) := by
  rw [layout_ofList, List.map_map]
  exact lays_parenthesized (lays_commaSeparated (lays_items each))

end Lists

/-! ### Members and calls -/

section Suffixes

variable (hd : Answers options d) {target : Expression} (htarget : target.isArrow = false)
  (h : Phrase d σ .call target pieces text words)

include hd htarget h

/-- A member by its name. A point has to be possible behind the target. -/
theorem dot (span : Span) {property : Identifier} (hpoint : Spells true text words)
    (hname : IsOrdinaryName property.name) :
    Phrase d σ .call (.member span target (.identifier property) false)
      (pieces ++ .text "." :: [.text property.name]) (text ++ '.' :: property.name.toList)
      (words ++ [.dot, .name property.name]) where
  lays := h.lays.append (.cons "." (lays_text property.name))
  spells := (spells_dot hpoint hname).weaken
  spells_point _ _ := spells_dot hpoint hname
  opens := h.opens.append (.inr (by decide)) _ _ _
  not_arrow := by
    refine List.forall_mem_append.mpr ⟨h.not_arrow, ?_⟩
    simp only [List.forall_mem_cons, List.not_mem_nil, false_imp_iff, implies_true, and_true]
    exact ⟨nofun, nofun⟩
  reads := ⟨.call, Nat.le_refl _, readsSuffixed_dot hd span property (h.suffixed htarget),
    fun hcall => readsSuffixed_dot hd span property (h.callee htarget hcall)⟩

/-- A member by an expression in brackets. -/
theorem bracket (hσ : σ.inGenerator = false) (span : Span) {property : Expression}
    (hplain : property.isArrow = false) {inner : List Piece} {innerText : List Char}
    {innerWords : List Word} (hinner : Phrase d σ .sequence property inner innerText innerWords) :
    Phrase d σ .call (.member span target property true)
      (pieces ++ (.text "[" :: inner ++ [.text "]"])) (text ++ '[' :: (innerText ++ [']']))
      (words ++ .bracketL :: (innerWords ++ [.bracketR])) where
  lays := h.lays.append (.cons "[" (hinner.lays.append (lays_text "]")))
  spells := (spells_bracket h.spells hinner.spells).weaken
  spells_point _ _ := spells_bracket h.spells hinner.spells
  opens := h.opens.append (.inr (by decide)) _ _ _
  not_arrow := by
    refine List.forall_mem_append.mpr ⟨h.not_arrow, List.forall_mem_cons.mpr ⟨nofun, ?_⟩⟩
    exact List.forall_mem_append.mpr ⟨hinner.not_arrow, List.forall_mem_singleton.mpr nofun⟩
  reads :=
    have hproperty := hinner.expression hd hσ hplain
    ⟨.call, Nat.le_refl _, readsSuffixed_bracket hd span (h.suffixed htarget) hproperty,
      fun hcall => readsSuffixed_bracket hd span (h.callee htarget hcall) hproperty⟩

theorem call (hσ : σ.inGenerator = false) (span : Span) {items : List Item}
    (each : ∀ i ∈ items, i.IsPrinted d σ) :
    Phrase d σ .call (.call span target (.ofList (items.map fun i => .item i.value)))
      (pieces ++ Layout.parenthesized (commaSeparated
        (Node.layout (.ofList (items.map fun i => .item i.value)))))
      (text ++ '(' :: (spacedBetween (items.map Item.text) ++ [')']))
      (words ++ .parenL :: (commaBetween (items.map Item.words) ++ [.parenR])) where
  lays := h.lays.append (lays_arguments each)
  spells := by
    have hspells := spells_call h.spells (spells_items each)
    simp only [List.map_map] at hspells
    exact hspells.weaken
  spells_point _ _ := by
    have hspells := spells_call h.spells (spells_items each)
    simp only [List.map_map] at hspells
    exact hspells
  opens := h.opens.append (.inr (by decide)) _ _ _
  not_arrow := by
    refine List.forall_mem_append.mpr ⟨h.not_arrow, List.forall_mem_cons.mpr ⟨nofun, ?_⟩⟩
    exact List.forall_mem_append.mpr ⟨not_arrow_items each, List.forall_mem_singleton.mpr nofun⟩
  reads := by
    have hreads := readsSuffixed_call hd span (h.suffixed htarget) (reads_items each hd hσ)
    simp only [List.map_map] at hreads
    exact ⟨.call, Nat.le_refl _, hreads, nofun⟩

end Suffixes

section Lists

variable (hd : Answers options d) (hσ : σ.inGenerator = false) {items : List Item}
  (each : ∀ i ∈ items, i.IsPrinted d σ)

include hd hσ each

/-- `new` with a callee in which no call takes its arguments. -/
theorem new (span : Span) {callee : Expression}
    (h : Phrase d σ .call callee pieces text words)
    (hcallee : ReadsSuffixed d σ true words callee) :
    Phrase d σ .call (.new span callee (.ofList (items.map fun i => .item i.value)))
      (.text "new " :: pieces ++ Layout.parenthesized (commaSeparated
        (Node.layout (.ofList (items.map fun i => .item i.value)))))
      ("new".toList ++ ' ' :: (text ++ '(' :: (spacedBetween (items.map Item.text) ++ [')'])))
      (.keyword .new :: (words ++ .parenL :: (commaBetween (items.map Item.words) ++ [.parenR]))) :=
  have hspells : Spells true
      ("new".toList ++ ' ' :: (text ++ '(' :: (spacedBetween (items.map Item.text) ++ [')'])))
      (.keyword .new ::
        (words ++ .parenL :: (commaBetween (items.map Item.words) ++ [.parenR]))) := by
    have hcall := spells_call h.spells (spells_items each)
    simp only [List.map_map] at hcall
    exact spells_before_space (w := .keyword .new) hcall rfl rfl fun _ _ hf =>
      Word.isRead_keyword .new (Word.isIdentifierPart_of_space hf)
  { lays := by
      have hlays := Lays.cons "new " (h.lays.append (lays_arguments each))
      simpa using hlays
    spells := hspells.weaken
    spells_point := fun _ _ => hspells
    opens := .of_plain rfl (w := .keyword .new) nofun (by decide) _ _ _
    not_arrow := by
      refine List.forall_mem_cons.mpr ⟨nofun, List.forall_mem_append.mpr ⟨h.not_arrow, ?_⟩⟩
      refine List.forall_mem_cons.mpr ⟨nofun, ?_⟩
      exact List.forall_mem_append.mpr ⟨not_arrow_items each, List.forall_mem_singleton.mpr nofun⟩
    reads := by
      have hreads := readsPrimary_new hd span hcallee (reads_items each hd hσ)
      simp only [List.map_map] at hreads
      exact ⟨.primary, by decide, hreads⟩ }

theorem array (span : Span) :
    Phrase d σ .primary (.array span (.ofHoleyList (items.map fun i => some (.item i.value))))
      (.text "[" :: holeyList (Node.layout (.ofHoleyList (items.map fun i => some (.item i.value))))
        ++ [.text "]"])
      ('[' :: (spacedBetween (items.map Item.text) ++ [']']))
      (.bracketL :: (commaBetween (items.map Item.words) ++ [.bracketR])) :=
  have hspells : Spells true ('[' :: (spacedBetween (items.map Item.text) ++ [']']))
      (.bracketL :: (commaBetween (items.map Item.words) ++ [.bracketR])) := by
    have hspells := spells_array (spells_items each)
    simp only [List.map_map] at hspells
    exact hspells
  { lays := by
      have hlist : Lays (holeyList
          (Node.layout (.ofHoleyList (items.map fun i => some (Node.item i.value)))))
          (spacedBetween (items.map Item.text)) := by
        rw [Node.ofHoleyList, layout_ofList, List.map_map, List.map_map]
        exact lays_holeyList (lays_items each)
      exact .cons "[" (hlist.append (lays_text "]"))
    spells := hspells.weaken
    spells_point := fun _ _ => hspells
    opens := .of_plain rfl (w := .bracketL) (fun h => absurd h (by decide)) (by decide) _ _ _
    not_arrow := by
      refine List.forall_mem_cons.mpr ⟨by decide, ?_⟩
      exact List.forall_mem_append.mpr
        ⟨not_arrow_items each, List.forall_mem_singleton.mpr (by decide)⟩
    reads := by
      have hreads := readsPrimary_array hd span (reads_items each hd hσ)
      simp only [List.map_map] at hreads
      exact ⟨.primary, Nat.le_refl _, hreads⟩ }

/-- Two or more expressions with commas between them. -/
theorem sequence (span : Span) (many : 2 ≤ items.length) :
    Phrase d σ .sequence (.sequence span (.ofList (items.map Item.value)))
      (commaSeparated ((Node.layout (.ofList (items.map Item.value))).map (· .assignment)))
      (spacedBetween (items.map Item.text)) (commaBetween (items.map Item.words)) where
  lays := by
    rw [layout_ofList, List.map_map, List.map_map]
    exact lays_commaSeparated (lays_items each)
  spells := by
    have hne : items ≠ [] := by
      rintro rfl
      exact absurd many (by decide)
    have hspells := spells_list (mt List.map_eq_nil_iff.mp hne) (spells_items each)
    simp only [List.map_map] at hspells
    exact hspells
  spells_point hp := absurd hp (by decide)
  opens := by
    match items, many with
    | i :: j :: items, _ =>
      exact (each i (List.mem_cons_self ..)).phrase.opens.append (.inl (by decide)) _ _ _
  not_arrow := not_arrow_items each
  reads := by
    have hreads := ReadsExpression.sequence span (by rwa [List.length_map]) (reads_items each hd hσ)
    simp only [List.map_map] at hreads
    exact ⟨.sequence, Nat.le_refl _, hreads⟩

end Lists

/-! ### Operators -/

section Operators

variable (hd : Answers options d)

/-- Without a space an operator does not fuse with its operand. -/
theorem fuses_of_needsSpace {operator : UnaryOperator} {argument : Expression} {c : Char}
    (hspace : operator.needsSpace argument = false)
    (hc : argument.sign? = some c ∨ IsPlainStart c) : operator.fuses c = false := by
  obtain ⟨hword, hsame⟩ := Bool.or_eq_false_iff.mp hspace
  cases operator
  case typeof | void | delete => exact absurd hword (by decide)
  case bitNot => rfl
  all_goals
    rcases hc with hsign | ⟨hplus, hminus, heq⟩
    · cases argument with
      | unary span operator argument =>
        cases operator <;> first | cases hsame; done | (obtain rfl := Option.some.inj hsign; rfl)
      | update span operator isPrefix argument =>
        cases isPrefix <;> cases operator <;>
          first | cases hsame; done | cases hsign; done | (obtain rfl := Option.some.inj hsign; rfl)
      | _ => cases hsign
    · simp [UnaryOperator.fuses, hplus, hminus, heq]

include hd

/-- An operator before its operand, with a space where they would fuse. -/
theorem unary (hstrict : σ.strict = false) (operator : UnaryOperator) (span : Span)
    {argument : Expression} (he : argument.isArrow = false)
    (h : Phrase d σ .unary argument pieces text words) :
    ∃ text', Phrase d σ .unary (.unary span operator argument)
      (.text operator.spelling ::
        (if operator.needsSpace argument then [.text " "] else []) ++ pieces)
      text' (operator.word :: words) := by
  obtain ⟨hkeeps, hquiet⟩ := operator.isJoiner_word
  have hopens : ∀ more, Opens .unary (.unary span operator argument)
      (operator.spelling.toList ++ more) (operator.word :: words) := by
    intro more
    refine .of_sign ?_ ?_ ?_ rfl more words
    · cases operator <;> rfl
    · cases operator <;> nofun
    · cases operator <;> decide
  have hnotArrow : ∀ w ∈ operator.word :: words, w.kind ≠ .arrow :=
    List.forall_mem_cons.mpr ⟨by cases operator <;> nofun, h.not_arrow⟩
  have hreads := readsOperand_unary hd hstrict operator span (h.operand hd he)
  cases hspace : operator.needsSpace argument with
  | true =>
    refine ⟨operator.spelling.toList ++ ' ' :: text, .cons operator.spelling (.cons " " h.lays), ?_,
      fun hp => absurd hp (by decide), hopens _, hnotArrow, .unary, Nat.le_refl _, hreads⟩
    rw [← operator.text_word]
    refine spells_before_space h.spells hkeeps hquiet fun _ _ hf => Word.isRead_unary operator ?_
    intro c hc
    obtain rfl := Option.some.inj (hc.symm.trans hf)
    cases operator <;> decide
  | false =>
    refine ⟨operator.spelling.toList ++ text, .cons operator.spelling h.lays, ?_,
      fun hp => absurd hp (by decide), hopens _, hnotArrow, .unary, Nat.le_refl _, hreads⟩
    rw [← operator.text_word]
    refine spells_before h.spells hkeeps hquiet fun _ after => Word.isRead_unary operator ?_
    intro c hc
    rw [List.head?_append_of_ne_nil _ h.opens.text_ne_nil] at hc
    refine fuses_of_needsSpace hspace ?_
    exact (h.opens.sign (Nat.le_refl _) c hc).imp_left And.right

/-- `++` or `--` before a name or a member. -/
theorem update (hstrict : σ.strict = false) (operator : UpdateOperator) (span : Span)
    {argument : Expression} (he : argument.isArrow = false) (hsimple : IsSimple argument)
    (h : Phrase d σ .unary argument pieces text words) :
    Phrase d σ .unary (.update span operator true argument) (.text operator.spelling :: pieces)
      (operator.spelling.toList ++ text) (operator.word :: words) where
  lays := .cons operator.spelling h.lays
  spells := spells_before (w := operator.word) h.spells rfl rfl fun _ _ =>
    Word.isRead_update operator
  spells_point hp := absurd hp (by decide)
  opens := by
    refine .of_sign rfl (w := operator.word) nofun ?_ rfl _ _
    cases operator <;> decide
  not_arrow := List.forall_mem_cons.mpr ⟨nofun, h.not_arrow⟩
  reads := ⟨.unary, Nat.le_refl _,
    readsOperand_update hd hstrict operator span hsimple (h.operand hd he)⟩

/-- `++` or `--` behind a name or a member. -/
theorem trailing (hstrict : σ.strict = false) (operator : UpdateOperator) (span : Span)
    {argument : Expression} (he : argument.isArrow = false) (hsimple : IsSimple argument)
    (h : Phrase d σ .call argument pieces text words) :
    Phrase d σ .trailing (.update span operator false argument)
      (pieces ++ [.text operator.spelling]) (text ++ operator.spelling.toList)
      (words ++ [operator.word]) where
  lays := h.lays.append (lays_text operator.spelling)
  spells := (spells_trailing h.spells operator).weaken
  spells_point hp := absurd hp (by decide)
  opens := h.opens.append (.inr (by decide)) _ _ _
  not_arrow := List.forall_mem_append.mpr ⟨h.not_arrow, List.forall_mem_singleton.mpr nofun⟩
  reads := ⟨.trailing, Nat.le_refl _,
    readsOperand_trailing hd hstrict operator span hsimple (h.suffixed he)⟩

section Pairs

variable {left right : Expression} {leftPieces rightPieces : List Piece}
  {leftText rightText : List Char} {leftWords rightWords : List Word} {p q : Precedence}

/-- An operator between its operands. -/
theorem join (operator : InfixOperator) (span : Span) (hleft : left.isArrow = false)
    (hright : right.isArrow = false)
    (h : Phrase d σ operator.leftFloor left leftPieces leftText leftWords)
    (h' : Phrase d σ operator.rightFloor right rightPieces rightText rightWords) :
    Phrase d σ operator.precedence (operator.join span left right)
      (between operator.spelling leftPieces rightPieces)
      (leftText ++ ' ' :: (operator.spelling.toList ++ ' ' :: rightText))
      (leftWords ++ operator.word :: rightWords) where
  lays := lays_between operator.spelling h.lays h'.lays
  spells := by
    obtain ⟨hkeeps, hquiet⟩ := operator.isJoiner_word
    rw [← operator.text_word]
    exact spells_between h.spells h'.spells hkeeps hquiet fun _ hf => Word.isRead_infix operator hf
  spells_point hp := absurd (Nat.lt_of_lt_of_le (by decide) hp)
    (Nat.not_lt.mpr (Nat.le_of_lt operator.precedence_lt_unary))
  opens := h.opens.append (.inl operator.precedence_lt_unary) _ _ _
  not_arrow := by
    refine List.forall_mem_append.mpr ⟨h.not_arrow, List.forall_mem_cons.mpr ⟨?_, h'.not_arrow⟩⟩
    exact operator.kind_ne_arrow
  reads := by
    obtain ⟨-, hleftFloor, hrightFloor⟩ := operator.strength_le_rank
    obtain ⟨hleftLevel, hrightLevel⟩ := operator.one_le_levels
    exact ⟨operator.precedence, Nat.le_refl _, InfixOperator.readsAt_precedence
      (readsOperators_join hd (h.operators hd hleft hleftLevel hleftFloor)
        (h'.operators hd hright hrightLevel hrightFloor) nofun span)⟩

/-- A condition and what it chooses between. -/
theorem conditional (hσ : σ.inGenerator = false) (span : Span) {test : Expression}
    (htest : test.isArrow = false) (hleft : left.isArrow = false) (hright : right.isArrow = false)
    (h : Phrase d σ .logicalOr test pieces text words)
    (hconsequent : Phrase d σ .assignment left leftPieces leftText leftWords)
    (halternate : Phrase d σ .assignment right rightPieces rightText rightWords) :
    Phrase d σ .conditional (.conditional span test left right)
      (pieces ++ .text " ? " :: leftPieces ++ .text " : " :: rightPieces)
      (text ++ ' ' :: ("?".toList ++ ' ' :: (leftText ++ ' ' :: (":".toList ++ ' ' :: rightText))))
      (words ++ .question :: (leftWords ++ .colon :: rightWords)) where
  lays := by
    have hlays :=
      (h.lays.append (.cons " ? " hconsequent.lays)).append (.cons " : " halternate.lays)
    simpa using hlays
  spells := by
    have hmark : ∀ {w : Word}, w = .question ∨ w = .colon → ∀ following : List Char,
        following.head? = some ' ' → w.IsRead false following := by
      rintro w (rfl | rfl) following hf <;>
        exact Word.isRead_punctuator_space (by decide) (by decide) hf
    exact spells_between (w := .question) h.spells (spells_between (w := .colon)
      hconsequent.spells halternate.spells rfl rfl (hmark (.inr rfl))) rfl rfl (hmark (.inl rfl))
  spells_point hp := absurd hp (by decide)
  opens := h.opens.append (.inl (by decide)) _ _ _
  not_arrow := by
    refine List.forall_mem_append.mpr ⟨h.not_arrow, List.forall_mem_cons.mpr ⟨nofun, ?_⟩⟩
    refine List.forall_mem_append.mpr ⟨hconsequent.not_arrow, ?_⟩
    exact List.forall_mem_cons.mpr ⟨nofun, halternate.not_arrow⟩
  reads := ⟨.conditional, Nat.le_refl _, readsValue_conditional hd hσ span htest
    (h.operators hd htest (Nat.le_refl 1) (Nat.le_refl _)) (hconsequent.item hd hσ hleft).value
    (halternate.item hd hσ hright).value⟩

/-- An assignment to a name or a member. -/
theorem assignment (hσ : σ.inGenerator = false) (hstrict : σ.strict = false)
    (operator : AssignmentOperator) (span : Span) {target : Pattern} (hsimple : IsSimple left)
    (htarget : left.toPattern false = .ok target) (hleft : left.isArrow = false)
    (hright : right.isArrow = false) (h : Phrase d σ .call left leftPieces leftText leftWords)
    (h' : Phrase d σ .assignment right rightPieces rightText rightWords) :
    Phrase d σ .assignment (.assignment span operator target right)
      (between operator.spelling leftPieces rightPieces)
      (leftText ++ ' ' :: (operator.spelling.toList ++ ' ' :: rightText))
      (leftWords ++ operator.word :: rightWords) where
  lays := lays_between operator.spelling h.lays h'.lays
  spells := by
    obtain ⟨hkeeps, hquiet⟩ := operator.isJoiner_word
    exact spells_between (w := operator.word) h.spells h'.spells hkeeps hquiet fun _ hf =>
      Word.isRead_assignment operator hf
  spells_point hp := absurd hp (by decide)
  opens := h.opens.append (.inl (by decide)) _ _ _
  not_arrow := by
    refine List.forall_mem_append.mpr ⟨h.not_arrow, List.forall_mem_cons.mpr ⟨?_, h'.not_arrow⟩⟩
    cases operator <;> nofun
  reads := ⟨.assignment, Nat.le_refl _, readsValue_assignment hd hσ hstrict operator span hsimple
    htarget (h.suffixed hleft) (h'.item hd hσ hright).value⟩

end Pairs

end Operators

end Phrase

end EcmaTree
