import EcmaTree.Print.Ambiguity
import EcmaTree.Proofs.Grammar.Induction

/-!
# An `else` joins the nearest `if`

A statement that ends in an `if` without `else` is never read up to an `else`: the rule for the
`if` looks for that word before it gives up, and every rule around it ends where its last
statement ends. So the token behind such a statement is another one, through chains of `if`, the
three kinds of loops and labels alike.
-/

namespace EcmaTree

open EcmaTree.Parser EcmaTree.Grammar EcmaTree.Reading Node

/-- The token at which a statement ends is no `else` that could still join the statement. -/
def Statement.EndsBefore (r : Statement) (u : ParseState) : Prop :=
  r.hasDanglingIf = true → u.kind ≠ .keyword .else

/-- The same of the answer to any goal, which need not be a statement. -/
def Goal.EndsBefore (g : Goal) (r : g.Result) (u : ParseState) : Prop :=
  match g, r with
  | .statement, r => Statement.EndsBefore r u
  | _, _ => True

namespace Dangling

variable {options : ParseOptions} {d : Descent} {s u : ParseState} {r : Statement}

/-- A statement that ends in no open `if` may be followed by anything. -/
theorem endsBefore_of_closed (h : r.hasDanglingIf = false) : r.EndsBefore u :=
  fun hr => absurd (h.symm.trans hr) Bool.false_ne_true

theorem closed_of_endsBefore (h : r.EndsBefore u) (hu : u.kind = .keyword .else) :
    r.hasDanglingIf = false := by
  cases hr : r.hasDanglingIf with
  | false => rfl
  | true => exact absurd hu (h hr)

theorem endsBefore_jumpOf {jump : Jump} {span : Span} {label : Option Identifier} :
    (jumpOf jump span label).EndsBefore u := by
  cases jump <;> exact endsBefore_of_closed rfl

section Rules

/- The statements that a rule depends on end before any `else` that could join them. -/
variable (hd : ∀ s r u, d .statement s = .ok r u → r.EndsBefore u)

include hd

theorem endsBefore_ifStatement (h : ifStatement d s = .ok r u) : r.EndsBefore u := by
  obtain ⟨s₁, test, s₂, consequent, s₃, alternate, -, -, -, alternate_ok, rfl⟩ := of_ifStatement h
  intro hr
  cases alternate_ok with
  | absent no_else => exact no_else
  | present word statement_ok => exact hd _ _ _ statement_ok hr

/-- Taking a label out of scope leaves the token as it is. -/
theorem endsBefore_loopBody {body : Statement} (h : loopBody d s = .ok body u) :
    body.EndsBefore u := by
  obtain ⟨t, body_ok, rfl⟩ := of_loopBody h
  intro hr
  exact hd _ _ t body_ok hr

theorem endsBefore_whileStatement (h : whileStatement d s = .ok r u) : r.EndsBefore u := by
  obtain ⟨s₁, test, s₂, body, -, -, body_ok, rfl⟩ := of_whileStatement h
  intro hr
  exact endsBefore_loopBody hd body_ok hr

theorem endsBefore_forParts {start : Place} {init : Node (.option .forInit)}
    (h : forParts d start init s = .ok r u) : r.EndsBefore u := by
  obtain ⟨s₁, test, s₂, s₃, update, s₄, s₅, body, -, -, -, -, -, body_ok, rfl⟩ := of_forParts h
  intro hr
  exact endsBefore_loopBody hd body_ok hr

theorem endsBefore_forEach {start : Place} {left : Node .forTarget}
    (h : ForEach d start left s r u) : r.EndsBefore u := by
  intro hr
  cases h with
  | keys _ _ _ body_ok => exact endsBefore_loopBody hd body_ok hr
  | values _ _ _ _ body_ok => exact endsBefore_loopBody hd body_ok hr

theorem endsBefore_forStatement (h : forStatement d s = .ok r u) : r.EndsBefore u := by
  obtain ⟨s₁, s₂, -, -, head⟩ := of_forStatement h
  cases head with
  | empty _ parts_ok => exact endsBefore_forParts hd parts_ok
  | declaration _ declaration_ok =>
    cases declaration_ok with
    | each _ _ _ each_ok => exact endsBefore_forEach hd each_ok
    | parts _ _ parts_ok => exact endsBefore_forParts hd parts_ok
  | expression expression_ok =>
    cases expression_ok with
    | each _ _ _ _ each_ok => exact endsBefore_forEach hd each_ok
    | parts _ parts_ok => exact endsBefore_forParts hd parts_ok

theorem endsBefore_expressionStatement (h : expressionStatement d s = .ok r u) :
    r.EndsBefore u := by
  cases of_expressionStatement h with
  | labeled _ _ _ labeled_ok =>
    obtain ⟨s₁, body, t, -, -, body_ok, rfl, rfl⟩ := of_labeledStatement labeled_ok
    intro hr
    exact hd _ _ t body_ok hr
  | plain => exact endsBefore_of_closed rfl

/-- One rule: only an `if`, a loop and a label end in a statement of their own. -/
theorem endsBefore_statement (h : StatementRead d options s r u) : r.EndsBefore u := by
  cases h with
  | declaration _ statement_ok =>
    obtain ⟨_, _, _, _, _, _, rfl⟩ := of_declarationStatement statement_ok
    exact endsBefore_of_closed rfl
  | block => exact endsBefore_of_closed rfl
  | empty _ statement_ok =>
    obtain ⟨-, rfl⟩ := of_emptyStatement statement_ok
    exact endsBefore_of_closed rfl
  | function _ statement_ok =>
    obtain ⟨_, _, _, _, rfl⟩ := of_functionStatement statement_ok
    exact endsBefore_of_closed rfl
  | returned _ statement_ok =>
    cases of_returnStatement statement_ok <;> exact endsBefore_of_closed rfl
  | conditional _ statement_ok => exact endsBefore_ifStatement hd statement_ok
  | whileLoop _ statement_ok => exact endsBefore_whileStatement hd statement_ok
  | forLoop _ statement_ok => exact endsBefore_forStatement hd statement_ok
  | jump _ statement_ok =>
    obtain ⟨_, _, _, _, _, rfl⟩ := of_jumpStatement statement_ok
    exact endsBefore_jumpOf
  | thrown _ statement_ok =>
    obtain ⟨_, _, _, _, _, _, rfl⟩ := of_throwStatement statement_ok
    exact endsBefore_of_closed rfl
  | guarded _ statement_ok =>
    obtain ⟨_, _, _, _, _, _, _, _, _, _, _, rfl⟩ := of_tryStatement statement_ok
    exact endsBefore_of_closed rfl
  | expression statement_ok => exact endsBefore_expressionStatement hd statement_ok

end Rules

theorem endsBefore_of_rule (hd : ∀ g s r u, d g s = .ok r u → g.EndsBefore r u) {g : Goal}
    {r : g.Result} (h : rule options d g s = .ok r u) : g.EndsBefore r u := by
  cases g with
  | statement => exact endsBefore_statement (hd .statement) (of_statement h)
  | _ => exact trivial

/-- No statement that is read ends before an `else` that could join it. -/
theorem endsBefore_of_answer {fuel : Nat} (h : answer options fuel .statement s = .ok r u) :
    r.EndsBefore u :=
  answer_induction (I := fun g _ r u => g.EndsBefore r u)
    (fun _ hd _ _ _ _ => endsBefore_of_rule hd) fuel .statement s r u h

end Dangling

end EcmaTree
