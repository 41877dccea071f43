import EcmaTree.Proofs.Grammar.Loosening.Basic

/-!
# What is made of an operand

A suffix, an operator or a question mark behind an operand makes an expression that begins where
the operand began. So an expression of another form, or one that begins further behind, is the
operand alone.
-/

namespace EcmaTree

/-- A form that only comes from what follows an operand. -/
def Node.isComposed : {c : Category} → Node c → Bool
  | _, .binary _ _ _ _ | _, .logical _ _ _ _ | _, .conditional _ _ _ _ => true
  | _, .call _ _ _ | _, .member _ _ _ _ | _, .memberPattern _ _ _ _ => true
  | _, .update _ _ isPrefix _ => !isPrefix
  | _, _ => false

namespace Grammar

open EcmaTree.Parser EcmaTree.Reading EcmaTree.Trail ParseState Node

variable {options : ParseOptions} {d : Descent} {s u : ParseState} {pending after : Pending}
  {e : Expression}

/-- The expression is not made of an operand that begins at `start`. -/
def IsLone (start : Place) (e : Expression) : Prop :=
  e.isComposed = true → e.span.start ≠ start

theorem isLone_of_not {start : Place} (h : e.isComposed = false) : IsLone start e :=
  fun hcomposed => (Bool.false_ne_true (h.symm.trans hcomposed)).elim

section Forms

variable (hd : Answers options d)

include hd

theorem eq_of_suffixes {base : Expression} {start : Place} {noCalls : Bool}
    (h : d (.suffixes base start noCalls) s = .ok e u) (he : IsLone start e) :
    e = base ∧ u = s := by
  induction hn : s.unread using Nat.strongRecOn generalizing s base with
  | ind n ih =>
    have hmade : ∀ {made : Expression} {t : ParseState}, t.unread < s.unread →
        d (.suffixes made start noCalls) t = .ok e u →
        made.isComposed = true → made.span.start = start → False := by
      intro made t hlt hmore hcomposed hstart
      obtain ⟨rfl, -⟩ := ih _ (hn ▸ hlt) hmore rfl
      exact he hcomposed hstart
    rw [← hd.rule_eq (.suffixes base start noCalls) s trivial] at h
    cases of_suffixes h with
    | done => exact ⟨rfl, rfl⟩
    | name dot name_ok more =>
      have hlt := unread_lt_of_takes (by decide) dot
      have hle := unread_le_of_follows (follows_of_identifier name_ok)
      exact (hmade (by omega) more rfl (start_spanFrom _ _)).elim
    | index opening property_ok closing more =>
      have hlt := unread_lt_of_takes (by decide) opening
      have hle := unread_le_of_follows (follows_of_expression hd.traces property_ok)
      have hlt' := unread_lt_of_takes (by decide) closing
      exact (hmade (by omega) more rfl (start_spanFrom _ _)).elim
    | call allowed opening arguments_ok more =>
      have hlt := unread_lt_of_takes (by decide) opening
      have hle := unread_le_of_follows (follows_of_callArguments hd.traces arguments_ok)
      exact (hmade (by omega) more rfl (start_spanFrom _ _)).elim

theorem eq_of_operators {left : Expression} {start : Place} {floor : Nat} {noIn : Bool}
    (h : d (.operators left start floor noIn) s = .ok e u) (he : IsLone start e) :
    e = left ∧ u = s := by
  induction hn : s.unread using Nat.strongRecOn generalizing s left with
  | ind n ih =>
    rw [← hd.rule_eq (.operators left start floor noIn) s trivial] at h
    cases of_operators h with
    | done => exact ⟨rfl, rfl⟩
    | operator kind tight notIn word operand_ok right_ok joined more =>
      have hk : s.kind ≠ .eof := by
        intro he
        simp [he, TokenKind.binaryStrength?] at kind
      have hlt := unread_lt_of_advance hk word
      have hf := follows_of_operand hd.traces operand_ok
      have hle := unread_le_of_follows (hf.trans (follows_of_goal hd.traces right_ok trivial))
      obtain ⟨rfl, -⟩ := ih _ (by omega) more rfl
      cases joined <;> exact (he rfl (start_spanFrom _ _)).elim

theorem primary_of_leftHandSide (h : LeftHandSide d pending s (e, after) u)
    (he : IsLone s.place e) : d (.primary pending) s = .ok (e, after) u := by
  cases h with
  | atom atom_ok => exact atom_ok
  | suffixed atom_ok more =>
    obtain ⟨rfl, rfl⟩ := eq_of_suffixes hd more he
    exact atom_ok

theorem primary_of_operand (hu : s.kind.isUnary = false)
    (h : d (.unary pending) s = .ok (e, after) u) (he : IsLone s.place e) :
    d (.primary pending) s = .ok (e, after) u := by
  rw [← hd.rule_eq (.unary pending) s trivial] at h
  cases of_unary h with
  | operator kind => cases hu.symm.trans kind
  | pending left_ok => exact primary_of_leftHandSide hd left_ok he
  | trailing left_ok more =>
    cases more with
    | bare => exact primary_of_leftHandSide hd left_ok he
    | update => exact (he rfl (start_spanFrom _ _)).elim

theorem unaryExpression_of_unary (hu : s.kind.isUnary = true)
    (h : d (.unary pending) s = .ok (e, after) u) :
    unaryExpression d s = .ok e u ∧ after = pending := by
  rw [← hd.rule_eq (.unary pending) s trivial] at h
  simp [rule, unary, hu] at h
  exact h

theorem operand_of_conditional {noIn : Bool}
    (h : conditional d noIn pending s = .ok (e, after) u) (he : IsLone s.place e) :
    d (.unary pending) s = .ok (e, after) u := by
  cases of_conditional h with
  | plain test_ok =>
    cases test_ok with
    | operand first => exact first
    | operators first more =>
      obtain ⟨rfl, rfl⟩ := eq_of_operators hd more he
      exact first
  | choice => exact (he rfl (start_spanFrom _ _)).elim

end Forms

end Grammar

end EcmaTree
