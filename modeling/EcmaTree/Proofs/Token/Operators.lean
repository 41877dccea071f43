import EcmaTree.Proofs.Token.Separate
import EcmaTree.Tree.Operator

/-!
# The words of operators

Operators are keywords or punctuators. Between its operands, with a space behind it, every infix
operator is one word, the slash because no expression may begin there. Before its operand an
operator is one word if the operand does not begin with a sign that would go on with it.
-/

namespace EcmaTree

namespace TokenKind

/-- A token that gives no meaning of its own to a parenthesis or a word behind it. -/
def isQuiet : TokenKind → Bool
  | .dot | .keyword .if | .keyword .for | .keyword .with | .keyword .while => false
  | _ => true

/-- A token that neither opens nor closes a context. -/
def keepsStack : TokenKind → Bool
  | .parenL | .parenR | .braceL | .braceR | .dollarBraceL | .backQuote | .keyword .function => false
  | _ => true

end TokenKind

/-- An operator between two operands. -/
inductive InfixOperator where
  | logical (operator : LogicalOperator)
  | binary (operator : BinaryOperator)
deriving DecidableEq, Repr

/-- The kind of the tokens of an operator. -/
def BinaryOperator.kind : BinaryOperator → TokenKind
  | .equal | .notEqual | .strictEqual | .strictNotEqual => .equality
  | .lessThan | .lessEqual | .greaterThan | .greaterEqual => .relational
  | .shiftLeft | .shiftRight | .shiftRightUnsigned => .bitShift
  | .add | .sub => .plusMin
  | .mul => .star
  | .div => .slash
  | .mod => .modulo
  | .exp => .exponent
  | .bitOr => .bitwiseOr
  | .bitXor => .bitwiseXor
  | .bitAnd => .bitwiseAnd
  | .in => .keyword .in
  | .instanceof => .keyword .instanceof

def LogicalOperator.kind : LogicalOperator → TokenKind
  | .or => .logicalOr
  | .and => .logicalAnd

def UnaryOperator.kind : UnaryOperator → TokenKind
  | .minus | .plus => .plusMin
  | .not | .bitNot => .bang
  | .typeof => .keyword .typeof
  | .void => .keyword .void
  | .delete => .keyword .delete

def AssignmentOperator.kind : AssignmentOperator → TokenKind
  | .assign => .eq
  | _ => .assign

/-- The word of an operator, which is a keyword or a punctuator. -/
def Word.ofSpelling (spelling : String) : TokenKind → Word
  | .keyword k => keyword k
  | kind => operator spelling kind

def UnaryOperator.word (operator : UnaryOperator) : Word :=
  .ofSpelling operator.spelling operator.kind

def UpdateOperator.word (operator : UpdateOperator) : Word :=
  .operator operator.spelling .incDec

def AssignmentOperator.word (operator : AssignmentOperator) : Word :=
  .operator operator.spelling operator.kind

namespace InfixOperator

def spelling : InfixOperator → String
  | logical operator => operator.spelling
  | binary operator => operator.spelling

def kind : InfixOperator → TokenKind
  | logical operator => operator.kind
  | binary operator => operator.kind

def word (operator : InfixOperator) : Word :=
  .ofSpelling operator.spelling operator.kind

/-- How tightly the operator binds. -/
def strength (operator : InfixOperator) : Nat :=
  operator.kind.binaryStrength?.getD 0

/-- How tightly the left operand binds at least. -/
def leftLevel (operator : InfixOperator) : Nat :=
  if operator.kind.isRightAssociative then operator.strength + 1 else operator.strength

/-- How tightly the right operand binds at least. -/
def rightLevel (operator : InfixOperator) : Nat :=
  if operator.kind.isRightAssociative then operator.strength else operator.strength + 1

theorem kind_word (operator : InfixOperator) : operator.word.kind = operator.kind := by
  cases operator with
  | logical operator => cases operator <;> rfl
  | binary operator => cases operator <;> rfl

theorem text_word (operator : InfixOperator) :
    operator.word.text = operator.spelling.toList := by
  cases operator with
  | logical operator => cases operator <;> rfl
  | binary operator => cases operator <;> rfl

/-- An infix operator is no bracket, and gives no meaning to what is behind it. -/
theorem isJoiner_word (operator : InfixOperator) :
    operator.word.kind.keepsStack = true ∧ operator.word.kind.isQuiet = true := by
  cases operator with
  | logical operator => cases operator <;> exact ⟨rfl, rfl⟩
  | binary operator => cases operator <;> exact ⟨rfl, rfl⟩

theorem binaryStrength?_kind (operator : InfixOperator) :
    operator.kind.binaryStrength? = some operator.strength := by
  cases operator with
  | logical operator => cases operator <;> rfl
  | binary operator => cases operator <;> rfl

theorem kind_ne_arrow (operator : InfixOperator) : operator.word.kind ≠ .arrow := by
  intro h
  have hstrength := operator.binaryStrength?_kind
  rw [← operator.kind_word, h] at hstrength
  cases hstrength

/-- What makes the exponent operator different: it is the tightest one, and groups to the right. -/
theorem cases_strength (operator : InfixOperator) :
    (operator.kind.isRightAssociative = false ∧ 0 < operator.strength ∧ operator.strength ≤ 10) ∨
      (operator.kind.isRightAssociative = true ∧ operator.strength = 11) := by
  cases operator with
  | logical operator => cases operator <;> decide
  | binary operator => cases operator <;> decide

theorem one_le_levels (operator : InfixOperator) :
    1 ≤ operator.leftLevel ∧ 1 ≤ operator.rightLevel := by
  unfold leftLevel rightLevel
  rcases operator.cases_strength with ⟨hassoc, hpos, -⟩ | ⟨hassoc, heq⟩
  · simp [hassoc, Nat.one_le_iff_ne_zero, Nat.pos_iff_ne_zero.mp hpos]
  · simp [hassoc, heq]

theorem kind_eq_in {operator : InfixOperator} (h : operator.kind = .keyword .in) :
    operator = .binary .in := by
  cases operator with
  | logical operator => cases operator <;> cases h
  | binary operator => cases operator <;> first | rfl | cases h

end InfixOperator

/-- A character that would make a longer word of the operator. -/
def UnaryOperator.fuses (operator : UnaryOperator) (c : Char) : Bool :=
  match operator with
  | .minus => c == '-' || c == '='
  | .plus => c == '+' || c == '='
  | .not => c == '='
  | .bitNot => false
  | .typeof | .void | .delete => isIdentifierPart c

/-- The words of operators before their operand are no brackets. -/
theorem UnaryOperator.isJoiner_word (operator : UnaryOperator) :
    operator.word.kind.keepsStack = true ∧ operator.word.kind.isQuiet = true := by
  cases operator <;> exact ⟨rfl, rfl⟩

theorem UnaryOperator.text_word (operator : UnaryOperator) :
    operator.word.text = operator.spelling.toList := by
  cases operator <;> rfl

theorem AssignmentOperator.isJoiner_word (operator : AssignmentOperator) :
    operator.word.kind.keepsStack = true ∧ operator.word.kind.isQuiet = true := by
  cases operator <;> exact ⟨rfl, rfl⟩

namespace Word

variable {allowed : Bool} {following : List Char}

theorem space_not_mem_continuations : ∀ p ∈ Punctuator.table, ' ' ∉ p.continuations := by
  decide +kernel

/-- In front of a space every punctuator is read, a slash where no expression may begin. -/
theorem isRead_punctuator_space {p : Punctuator} (hp : p ∈ Punctuator.table)
    (hslash : p.spelling.toList.head? = some '/' → allowed = false)
    (hf : following.head? = some ' ') : (punctuator p).IsRead allowed following := by
  have hc : ∀ c ∈ following.head?, c = ' ' := fun c hc => Option.some.inj (hc.symm.trans hf)
  refine isRead_punctuator hp (fun c h => ?_) hslash (fun _ c h => ?_) (fun _ c h => ?_)
  · rw [hc c h]
    exact space_not_mem_continuations p hp
  · rw [hc c h]
    decide
  · rw [hc c h]
    decide

theorem isIdentifierPart_of_space (hf : following.head? = some ' ') :
    ∀ c ∈ following.head?, isIdentifierPart c = false := by
  intro c hc
  rw [Option.some.inj (hc.symm.trans hf)]
  decide

theorem isRead_infix (operator : InfixOperator) (hf : following.head? = some ' ') :
    operator.word.IsRead false following := by
  have hletters := isIdentifierPart_of_space hf
  cases operator with
  | logical operator =>
    cases operator <;> exact isRead_punctuator_space (by decide) (fun _ => rfl) hf
  | binary operator =>
    cases operator
    case «in» | «instanceof» => exact isRead_keyword _ hletters
    all_goals exact isRead_punctuator_space (by decide) (fun _ => rfl) hf

theorem isRead_assignment (operator : AssignmentOperator) (hf : following.head? = some ' ') :
    operator.word.IsRead false following := by
  cases operator <;> exact isRead_punctuator_space (by decide) (fun _ => rfl) hf

/-- A punctuator that none goes on with is read in front of any text. -/
theorem isRead_closed {p : Punctuator} (hp : p ∈ Punctuator.table)
    (hnone : p.continuations = []) (hslash : p.spelling.toList.head? ≠ some '/')
    (hpoint : p.spelling ≠ ".") : (punctuator p).IsRead allowed following :=
  isRead_punctuator hp (by simp [hnone]) (fun h => absurd h hslash)
    (fun h => absurd (by rw [h]; rfl) hslash) (fun h => absurd h hpoint)

theorem isRead_update (operator : UpdateOperator) : operator.word.IsRead allowed following := by
  cases operator <;>
    exact isRead_closed (by decide) (by decide) (by decide) (by decide)

theorem isRead_unary (operator : UnaryOperator)
    (hf : ∀ c ∈ following.head?, operator.fuses c = false) :
    operator.word.IsRead allowed following := by
  have hsign : ∀ {p : Punctuator}, p ∈ Punctuator.table →
      (∀ c ∈ p.continuations, operator.fuses c = true) → p.spelling.toList.head? ≠ some '/' →
      p.spelling ≠ "." → (punctuator p).IsRead allowed following := by
    intro p hp hfuses hslash hpoint
    refine isRead_punctuator hp (fun c hc hgoes => ?_) (fun h => absurd h hslash)
      (fun h => absurd (by rw [h]; rfl) hslash) (fun h => absurd h hpoint)
    exact Bool.false_ne_true ((hf c hc).symm.trans (hfuses c hgoes))
  cases operator
  case minus =>
    exact @hsign ⟨"-", .plusMin, true⟩ (by decide) (List.all_eq_true.mp (by decide)) (by decide)
      (by decide)
  case plus =>
    exact @hsign ⟨"+", .plusMin, true⟩ (by decide) (List.all_eq_true.mp (by decide)) (by decide)
      (by decide)
  case not =>
    exact @hsign ⟨"!", .bang, true⟩ (by decide) (List.all_eq_true.mp (by decide)) (by decide)
      (by decide)
  case bitNot =>
    exact @hsign ⟨"~", .bang, true⟩ (by decide) (List.all_eq_true.mp (by decide)) (by decide)
      (by decide)
  all_goals exact isRead_keyword _ hf

end Word

end EcmaTree
