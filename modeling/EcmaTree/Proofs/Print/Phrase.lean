import EcmaTree.Proofs.Grammar.Phrase.Primary
import EcmaTree.Proofs.Print.Lays

/-!
# Printed phrases

A printed phrase is an expression laid out for a binding strength, the text and the words that it
is written in, and the rung of the grammar on which the words are read as the expression again. An
expression that binds tight enough for its place is read there as it is. Any other one stands in
parentheses, and is a primary expression then.
-/

namespace EcmaTree

open EcmaTree.Parser EcmaTree.Grammar EcmaTree.Reading

namespace Grammar

variable (d : Descent) (σ : Scope)

/-- The words are read as the expression where its precedence is the one given. Only an expression
without a call is read as the callee of `new`. -/
def ReadsAt (p : Precedence) (words : List Word) (e : Expression) : Prop :=
  match p with
  | .sequence => ReadsExpression d σ words e
  | .assignment | .conditional => ReadsValue d σ false words e
  | .unary | .trailing => ReadsOperand d σ words e
  | .call => ReadsSuffixed d σ false words e ∧
      (e.containsCall = false → ReadsSuffixed d σ true words e)
  | .primary => ReadsPrimary d σ words e
  | p => ReadsOperators d σ false (p.rank - 2) words e

variable {d σ} {options : ParseOptions} (hd : Answers options d) {p : Precedence}
  {words : List Word} {e : Expression}

namespace ReadsAt

theorem suffixed (h : ReadsAt d σ p words e) (he : e.isArrow = false)
    (hp : Precedence.call.rank ≤ p.rank) : ReadsSuffixed d σ false words e := by
  cases p
  case call => exact h.1
  case primary => exact readsSuffixed_of_primary h he false
  all_goals exact absurd hp (by decide)

theorem callee (h : ReadsAt d σ p words e) (he : e.isArrow = false)
    (hp : Precedence.call.rank ≤ p.rank) (hcall : e.containsCall = false) :
    ReadsSuffixed d σ true words e := by
  cases p
  case call => exact h.2 hcall
  case primary => exact readsSuffixed_of_primary h he true
  all_goals exact absurd hp (by decide)

include hd

theorem operand (h : ReadsAt d σ p words e) (he : e.isArrow = false)
    (hp : Precedence.unary.rank ≤ p.rank) : ReadsOperand d σ words e := by
  cases p
  case unary | trailing => exact h
  case call | primary => exact readsOperand_of_suffixed hd (h.suffixed he (by decide))
  all_goals exact absurd hp (by decide)

theorem operators (h : ReadsAt d σ p words e) (he : e.isArrow = false) {level : Nat}
    (hlevel : 1 ≤ level) (hp : level + 2 ≤ p.rank) : ReadsOperators d σ false level words e := by
  by_cases hoperand : Precedence.unary.rank ≤ p.rank
  · exact readsOperators_of_operand (h.operand hd he hoperand) he false level
  · cases p
    case unary | trailing | call | primary => exact absurd (by decide) hoperand
    case sequence | assignment | conditional =>
      simp only [Precedence.rank] at hp
      omega
    all_goals exact h.of_le (Nat.le_sub_of_add_le hp)

theorem value (hσ : σ.inGenerator = false) (h : ReadsAt d σ p words e) (he : e.isArrow = false)
    (hp : Precedence.assignment.rank ≤ p.rank) : ReadsValue d σ false words e := by
  by_cases hoperators : Precedence.logicalOr.rank ≤ p.rank
  · exact readsValue_of_operators hd hσ (h.operators hd he (Nat.le_refl 1) hoperators)
  · cases p
    case assignment | conditional => exact h
    case sequence => exact absurd hp (by decide)
    all_goals exact absurd (by decide) hoperators

theorem expression (hσ : σ.inGenerator = false) (h : ReadsAt d σ p words e)
    (he : e.isArrow = false) (hopens : (kindAhead words).opensOperand = true) :
    ReadsExpression d σ words e := by
  by_cases hp : p = .sequence
  · subst hp
    exact h
  · refine .single ⟨hopens, h.value hd hσ he ?_⟩
    cases p <;> first | exact absurd rfl hp | decide

end ReadsAt

end Grammar

/-- The character of an operator that the text of an expression begins with. -/
def Expression.sign? : Expression → Option Char
  | .unary _ operator _ => operator.spelling.toList.head?
  | .update _ operator true _ => operator.spelling.toList.head?
  | _ => none

/-- A character that no sign before it goes on with. -/
def IsPlainStart (c : Char) : Prop :=
  c ≠ '+' ∧ c ≠ '-' ∧ c ≠ '='

instance : DecidablePred IsPlainStart :=
  fun _ => inferInstanceAs (Decidable (_ ∧ _))

/-- How the text of an expression and its words begin. A word of the text may follow a sign if the
expression is at least as tight as an operand. -/
structure Opens (p : Precedence) (e : Expression) (text : List Char) (words : List Word) :
    Prop where
  kind : (kindAhead words).opensOperand = true
  not_let : ∀ w ∈ words.head?, w.kind = .name → w.value.text? ≠ some "let"
  text_ne_nil : text ≠ []
  sign : Precedence.unary.rank ≤ p.rank → ∀ c ∈ text.head?,
    (p = .unary ∧ e.sign? = some c) ∨ IsPlainStart c

/-- The pieces are written as the text, which spells words that are read as the expression where
the strength `p` is asked for. -/
structure Phrase (d : Descent) (σ : Scope) (p : Precedence) (e : Expression) (pieces : List Piece)
    (text : List Char) (words : List Word) : Prop where
  lays : Lays pieces text
  spells : Spells false text words
  spells_point : Precedence.call.rank ≤ p.rank → e.isInteger = false → Spells true text words
  opens : Opens p e text words
  not_arrow : ∀ w ∈ words, w.kind ≠ .arrow
  reads : ∃ q : Precedence, p.rank ≤ q.rank ∧ ReadsAt d σ q words e

namespace Opens

variable {p q : Precedence} {e e' : Expression} {text : List Char} {words : List Word}

/-- A phrase that begins with another one. -/
theorem append (h : Opens q e' text words) (hp : p.rank < Precedence.unary.rank ∨
    Precedence.unary.rank < q.rank) (e : Expression) (more : List Char) (others : List Word) :
    Opens p e (text ++ more) (words ++ others) where
  kind := (congrArg _ (kindAhead_append h.kind others)).trans h.kind
  not_let := by
    intro w hw
    refine h.not_let w ?_
    have hkind := h.kind
    cases words with
    | nil => cases hkind
    | cons => exact hw
  text_ne_nil := List.append_ne_nil_of_left_ne_nil h.text_ne_nil more
  sign := by
    intro hle c hc
    rw [List.head?_append_of_ne_nil _ h.text_ne_nil] at hc
    rcases hp with hp | hp
    · exact absurd hle (Nat.not_le_of_lt hp)
    · rcases h.sign (Nat.le_of_lt hp) c hc with ⟨rfl, -⟩ | hplain
      · exact absurd hp (Nat.lt_irrefl _)
      · exact .inr hplain

/-- A phrase that begins with a word that is no sign. -/
theorem of_plain {w : Word} {c : Char} {more : List Char} (hw : w.kind.opensOperand = true)
    (hlet : w.kind = .name → w.value.text? ≠ some "let") (hc : IsPlainStart c) (p : Precedence)
    (e : Expression)
    (words : List Word) : Opens p e (c :: more) (w :: words) where
  kind := hw
  not_let := by
    rintro w' hw'
    obtain rfl := Option.some.inj hw'
    exact hlet
  text_ne_nil := List.cons_ne_nil _ _
  sign := by
    rintro - c' hc'
    obtain rfl := Option.some.inj hc'
    exact .inr hc

/-- A phrase that begins with its operator. -/
theorem of_sign {w : Word} {operator : List Char} (hw : w.kind.opensOperand = true)
    (hlet : w.kind = .name → w.value.text? ≠ some "let") (hne : operator ≠ [])
    (hsign : e.sign? = operator.head?)
    (more : List Char) (words : List Word) :
    Opens .unary e (operator ++ more) (w :: words) where
  kind := hw
  not_let := by
    rintro w' hw'
    obtain rfl := Option.some.inj hw'
    exact hlet
  text_ne_nil := List.append_ne_nil_of_left_ne_nil hne more
  sign := by
    rintro - c hc
    rw [List.head?_append_of_ne_nil _ hne] at hc
    exact .inl ⟨rfl, hsign.trans hc⟩

/-- Where less is asked for. -/
theorem of_le (h : Opens q e text words) (hle : p.rank ≤ q.rank) : Opens p e text words where
  kind := h.kind
  not_let := h.not_let
  text_ne_nil := h.text_ne_nil
  sign := by
    intro hp c hc
    rcases h.sign (Nat.le_trans hp hle) c hc with ⟨rfl, hsign⟩ | hplain
    · have hunary : p = .unary := by
        cases p <;> first | rfl | exact absurd hp (by decide) | exact absurd hle (by decide)
      exact .inl ⟨hunary, hsign⟩
    · exact .inr hplain

end Opens

namespace Phrase

variable {d : Descent} {σ : Scope} {options : ParseOptions} {p q : Precedence} {e : Expression}
  {pieces : List Piece} {text : List Char} {words : List Word}

theorem of_le (h : Phrase d σ q e pieces text words) (hle : p.rank ≤ q.rank) :
    Phrase d σ p e pieces text words where
  lays := h.lays
  spells := h.spells
  spells_point hp := h.spells_point (Nat.le_trans hp hle)
  opens := h.opens.of_le hle
  not_arrow := h.not_arrow
  reads := by
    obtain ⟨r, hr, hreads⟩ := h.reads
    exact ⟨r, Nat.le_trans hle hr, hreads⟩

theorem suffixed (h : Phrase d σ .call e pieces text words) (he : e.isArrow = false) :
    ReadsSuffixed d σ false words e := by
  obtain ⟨q, hq, hreads⟩ := h.reads
  exact hreads.suffixed he hq

theorem callee (h : Phrase d σ .call e pieces text words) (he : e.isArrow = false)
    (hcall : e.containsCall = false) : ReadsSuffixed d σ true words e := by
  obtain ⟨q, hq, hreads⟩ := h.reads
  exact hreads.callee he hq hcall

theorem callee_of_primary (h : Phrase d σ .primary e pieces text words)
    (he : e.isArrow = false) : ReadsSuffixed d σ true words e := by
  obtain ⟨q, hq, hreads⟩ := h.reads
  cases q <;> first | exact absurd hq (by decide) | exact readsSuffixed_of_primary hreads he true

theorem operand (hd : Answers options d) (h : Phrase d σ .unary e pieces text words)
    (he : e.isArrow = false) : ReadsOperand d σ words e := by
  obtain ⟨q, hq, hreads⟩ := h.reads
  exact hreads.operand hd he hq

theorem operators (hd : Answers options d) (h : Phrase d σ p e pieces text words)
    (he : e.isArrow = false) {level : Nat} (hlevel : 1 ≤ level) (hp : level + 2 ≤ p.rank) :
    ReadsOperators d σ false level words e := by
  obtain ⟨q, hq, hreads⟩ := h.reads
  exact hreads.operators hd he hlevel (Nat.le_trans hp hq)

theorem item (hd : Answers options d) (hσ : σ.inGenerator = false)
    (h : Phrase d σ .assignment e pieces text words) (he : e.isArrow = false) :
    ReadsItem d σ words e := by
  obtain ⟨q, hq, hreads⟩ := h.reads
  exact ⟨h.opens.kind, hreads.value hd hσ he hq⟩

theorem expression (hd : Answers options d) (hσ : σ.inGenerator = false)
    (h : Phrase d σ p e pieces text words) (he : e.isArrow = false) :
    ReadsExpression d σ words e := by
  obtain ⟨q, -, hreads⟩ := h.reads
  exact hreads.expression hd hσ he h.opens.kind

/-- In parentheses every phrase is a primary expression. -/
theorem parenthesized (hd : Answers options d) (hx : Decides d) (hσ : σ.inGenerator = false)
    (h : Phrase d σ q e pieces text words) (he : e.isArrow = false) (p : Precedence) :
    Phrase d σ p e (Layout.parenthesized pieces) ('(' :: (text ++ [')']))
      (.parenL :: (words ++ [.parenR])) where
  lays := lays_parenthesized h.lays
  spells := (spells_parentheses h.spells).weaken
  spells_point _ _ := spells_parentheses h.spells
  opens := .of_plain rfl (w := .parenL) nofun (by decide) p e _
  not_arrow := by
    intro w hw
    simp only [List.mem_cons, List.mem_append, List.not_mem_nil, or_false] at hw
    rcases hw with rfl | hw | rfl
    · nofun
    · exact h.not_arrow w hw
    · nofun
  reads :=
    ⟨.primary, by cases p <;> decide, readsPrimary_parentheses hd hx (h.expression hd hσ he)⟩

/-- What is laid out for its own strength is laid out for every place. -/
theorem exists_floor (hd : Answers options d) (hx : Decides d) (hσ : σ.inGenerator = false)
    (h : Phrase d σ e.precedence e (Node.layout e .sequence) text words) (he : e.isArrow = false)
    (floor : Precedence) :
    ∃ text' words', Phrase d σ floor e (Node.layout e floor) text' words' := by
  rcases Nat.lt_or_ge e.precedence.rank floor.rank with hlooser | hle
  · rw [layout_of_looser hlooser]
    exact ⟨_, _, h.parenthesized hd hx hσ he floor⟩
  · rw [layout_of_not_looser hle]
    exact ⟨_, _, h.of_le hle⟩

end Phrase

end EcmaTree
