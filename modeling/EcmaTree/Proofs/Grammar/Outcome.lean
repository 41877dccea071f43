import EcmaTree.Grammar
import Mathlib.Tactic.Simproc.ExistsAndEq

/-!
# Successful steps of a parse

A rule that succeeds has gone through steps that all succeeded. The lemmas below say for
each step of a parse when it succeeds, with which value and in which state, so a rule
is taken apart into the facts it has established and is never unfolded again after that.
-/

namespace EcmaTree

namespace ParseState

/-- The kind of the current token. -/
abbrev kind (s : ParseState) : TokenKind :=
  s.stream.token.kind

/-- Where the current token starts. -/
abbrev place (s : ParseState) : Place :=
  s.stream.token.span.start

/-- The span from `start` to the end of the previous token. -/
def spanFrom (s : ParseState) (start : Place) : Span :=
  match s.stream.last with
  | some last => Span.closing start last.stop
  | none => ⟨start, start⟩

theorem start_spanFrom (s : ParseState) (start : Place) : (s.spanFrom start).start = start := by
  unfold spanFrom
  split
  · exact Span.start_closing ..
  · rfl

/-- The end of the previous token, or `start` before any token. -/
def lastEnd (s : ParseState) (start : Place) : Place :=
  match s.stream.last with
  | some last => last.stop
  | none => ⟨0, start.position⟩

/-- Whether a semicolon may be left out before the current token. -/
def endsStatement (s : ParseState) : Bool :=
  s.kind == .eof || s.kind == .braceR || s.stream.afterLineBreak

/-- Whether the current token is the given name. -/
def isWord (s : ParseState) (word : String) : Bool :=
  s.kind == .name && s.stream.token.value.text? == some word

theorem kind_of_isWord {s : ParseState} {word : String} (h : s.isWord word = true) :
    s.kind = .name :=
  eq_of_beq (Bool.and_eq_true_iff.mp h).1

/-- One more label is in scope. -/
def pushLabel (s : ParseState) (label : Label) : ParseState :=
  { s with scope := { s.scope with labels := label :: s.scope.labels } }

/-- The innermost label goes out of scope. -/
def popLabel (s : ParseState) : ParseState :=
  { s with scope := { s.scope with labels := s.scope.labels.tail } }

/-- The scope of a function body, in which no label is known. -/
def enterFunction (s : ParseState) (generator : Bool) : ParseState :=
  { s with scope := ⟨s.scope.strict, true, generator, []⟩ }

/-- The scope of a function body is left for the one around it. -/
def returnTo (s : ParseState) (scope : Scope) : ParseState :=
  { s with scope := scope }

@[simp]
theorem stream_pushLabel (s : ParseState) (label : Label) :
    (s.pushLabel label).stream = s.stream := rfl

@[simp]
theorem stream_popLabel (s : ParseState) : s.popLabel.stream = s.stream := rfl

@[simp]
theorem stream_enterFunction (s : ParseState) (generator : Bool) :
    (s.enterFunction generator).stream = s.stream := rfl

@[simp]
theorem stream_returnTo (s : ParseState) (scope : Scope) : (s.returnTo scope).stream = s.stream :=
  rfl

/-- An arrow function may begin with a parenthesis or a name where an assignment begins. -/
def markArrow (s : ParseState) : ParseState :=
  if s.kind = .parenL ∨ s.kind = .name then { s with arrowStart := some s.place.offset } else s

@[simp]
theorem stream_markArrow (s : ParseState) : s.markArrow.stream = s.stream := by
  unfold markArrow
  split <;> rfl

theorem kind_markArrow (s : ParseState) : s.markArrow.kind = s.kind :=
  congrArg (·.token.kind) (stream_markArrow s)

theorem place_markArrow (s : ParseState) : s.markArrow.place = s.place :=
  congrArg (·.token.span.start) (stream_markArrow s)

theorem markArrow_eq_self {s : ParseState} (hp : s.kind ≠ .parenL) (hn : s.kind ≠ .name) :
    s.markArrow = s := by
  unfold markArrow
  rw [if_neg (not_or.mpr ⟨hp, hn⟩)]

@[simp]
theorem scope_markArrow (s : ParseState) : s.markArrow.scope = s.scope := by
  unfold markArrow
  split <;> rfl

end ParseState

namespace Parser

variable {α β : Type} {s s' : ParseState} {k : TokenKind}

/-- A step that depends on a condition and goes on in the same way in both cases. -/
theorem ite_bind {c : Prop} [Decidable c] {p q : Parser α} {f : α → Parser β} :
    (if c then p >>= f else q >>= f) = (if c then p else q) >>= f := by
  split <;> rfl

theorem unless_bind {c : Prop} [Decidable c] {p : Parser PUnit} {q : Parser β} :
    (if c then q else p >>= fun _ => q) = (if c then pure () else p) >>= fun _ => q := by
  split <;> rfl

theorem when_bind {c : Prop} [Decidable c] {p : Parser PUnit} {q : Parser β} :
    (if c then p >>= fun _ => q else q) = (if c then p else pure ()) >>= fun _ => q := by
  split <;> rfl

/-- A rule that is a case distinction is taken apart in the equation with its name `m`. -/
theorem run_eq_ok {p : Parser α} {a : α} : p s = .ok a s' ↔ ∃ m, m = p ∧ m s = .ok a s' := by
  simp

@[simp]
theorem exists_unit {p : Unit → Prop} : (∃ x, p x) ↔ p () :=
  ⟨fun ⟨_, h⟩ => h, fun h => ⟨_, h⟩⟩

@[simp]
theorem bind_eq_ok {p : Parser α} {f : α → Parser β} {b : β} :
    (p >>= f) s = .ok b s' ↔ ∃ a t, p s = .ok a t ∧ f a t = .ok b s' := by
  change EStateM.bind p f s = _ ↔ _
  unfold EStateM.bind
  cases p s with
  | ok a t => simp
  | error e t => simp

@[simp]
theorem map_eq_ok {p : Parser α} {f : α → β} {b : β} :
    (f <$> p) s = .ok b s' ↔ ∃ a, p s = .ok a s' ∧ b = f a := by
  change EStateM.map f p s = _ ↔ _
  unfold EStateM.map
  cases p s with
  | ok a t => simp [and_comm, eq_comm]
  | error e t => simp

@[simp]
theorem pure_eq_ok {a b : α} : (pure a : Parser α) s = .ok b s' ↔ b = a ∧ s' = s := by
  change EStateM.Result.ok a s = .ok b s' ↔ _
  simp [eq_comm]

@[simp]
theorem ite_eq_ok {c : Prop} [Decidable c] {p q : Parser α} {a : α} :
    (if c then p else q) s = .ok a s' ↔ (c ∧ p s = .ok a s') ∨ (¬c ∧ q s = .ok a s') := by
  by_cases h : c <;> simp [h]

@[simp]
theorem get_eq_ok {t : ParseState} : (get : Parser ParseState) s = .ok t s' ↔ t = s ∧ s' = s := by
  change EStateM.Result.ok s s = .ok t s' ↔ _
  simp [eq_comm]

@[simp]
theorem modify_eq_ok {f : ParseState → ParseState} {u : PUnit} :
    (modify f : Parser PUnit) s = .ok u s' ↔ s' = f s := by
  change EStateM.Result.ok PUnit.unit (f s) = .ok u s' ↔ _
  simp [eq_comm]

@[simp]
theorem fail_ne_ok {fault : Fault} {place : Place} {a : α} :
    (fail fault place : Parser α) s ≠ .ok a s' := nofun

@[simp]
theorem unexpected_ne_ok {a : α} : (unexpected : Parser α) s ≠ .ok a s' := nofun

@[simp]
theorem lift_eq_ok {r : Except ParseError α} {a : α} :
    lift r s = .ok a s' ↔ r = .ok a ∧ s' = s := by
  cases r with
  | ok b => simp [lift, eq_comm]
  | error e => exact ⟨nofun, nofun⟩

@[simp]
theorem token_eq_ok {t : Token} : token s = .ok t s' ↔ t = s.stream.token ∧ s' = s := by
  simp [token, and_comm]

@[simp]
theorem kind_eq_ok : kind s = .ok k s' ↔ k = s.kind ∧ s' = s := by
  simp [kind, and_comm]

@[simp]
theorem here_eq_ok {p : Place} : here s = .ok p s' ↔ p = s.place ∧ s' = s := by
  simp [here, and_comm]

@[simp]
theorem strict_eq_ok {b : Bool} : strict s = .ok b s' ↔ b = s.scope.strict ∧ s' = s := by
  simp [strict, and_comm]

@[simp]
theorem finish_eq_ok {start : Place} {span : Span} :
    finish start s = .ok span s' ↔ span = s.spanFrom start ∧ s' = s := by
  simp only [finish, ParseState.spanFrom, bind_eq_ok, get_eq_ok, ↓existsAndEq, true_and]
  cases s.stream.last <;> simp

@[simp]
theorem lastEnd_eq_ok {start place : Place} :
    lastEnd start s = .ok place s' ↔ place = s.lastEnd start ∧ s' = s := by
  simp only [lastEnd, ParseState.lastEnd, bind_eq_ok, get_eq_ok, ↓existsAndEq, true_and]
  cases s.stream.last <;> simp

@[simp]
theorem sees_eq_ok {b : Bool} : sees k s = .ok b s' ↔ b = (s.kind == k) ∧ s' = s := by
  simp [sees, and_comm]

@[simp]
theorem isContextual_eq_ok {word : String} {b : Bool} :
    isContextual word s = .ok b s' ↔ b = s.isWord word ∧ s' = s := by
  simp [isContextual, ParseState.isWord, and_comm]

@[simp]
theorem afterLineBreak_eq_ok {b : Bool} :
    afterLineBreak s = .ok b s' ↔ b = s.stream.afterLineBreak ∧ s' = s := by
  simp [afterLineBreak, and_comm]

@[simp]
theorem canInsertSemicolon_eq_ok {b : Bool} :
    canInsertSemicolon s = .ok b s' ↔ b = s.endsStatement ∧ s' = s := by
  simp only [canInsertSemicolon, bind_eq_ok, kind_eq_ok, afterLineBreak_eq_ok, pure_eq_ok,
    ParseState.endsStatement, ↓existsAndEq, true_and]

theorem advance_eq_ok {u : Unit} :
    advance s = .ok u s' ↔
      ∃ stream, s.stream.advance = .ok () stream ∧ s' = { s with stream := stream } := by
  unfold advance scan
  cases h : s.stream.advance with
  | ok _ stream => simp [eq_comm]
  | error e stream => simp

/-- The current token is of kind `k`, and `s'` is the state after it is left behind. -/
def Takes (k : TokenKind) (s s' : ParseState) : Prop :=
  s.kind = k ∧ advance s = .ok () s'

/-- Only a parenthesis or a name is marked. -/
theorem takes_of_markArrow (hp : k ≠ .parenL) (hn : k ≠ .name) (h : Takes k s.markArrow s') :
    Takes k s s' := by
  obtain ⟨hk, ha⟩ := h
  rw [ParseState.kind_markArrow] at hk
  rw [ParseState.markArrow_eq_self (hk ▸ hp) (hk ▸ hn)] at ha
  exact ⟨hk, ha⟩

/-- Whether the current token is of kind `k`, in which case it is left behind. -/
def Eats (k : TokenKind) (eaten : Bool) (s s' : ParseState) : Prop :=
  (eaten = true ∧ Takes k s s') ∨ (eaten = false ∧ s.kind ≠ k ∧ s' = s)

@[simp]
theorem eat_eq_ok {b : Bool} :
    eat k s = .ok b s' ↔ (b = true ∧ Takes k s s') ∨ (b = false ∧ s.kind ≠ k ∧ s' = s) := by
  by_cases h : s.kind = k <;> simp [eat, Takes, h, and_comm]

@[simp]
theorem expect_eq_ok {u : Unit} : expect k s = .ok u s' ↔ Takes k s s' := by
  simp [expect]

/-- A statement ends with a semicolon, or where one may be left out. -/
def Ends (s s' : ParseState) : Prop :=
  Takes .semi s s' ∨ (s.kind ≠ .semi ∧ s.endsStatement = true ∧ s' = s)

@[simp]
theorem semicolon_eq_ok {u : Unit} : semicolon s = .ok u s' ↔ Ends s s' := by
  simp only [semicolon, bind_eq_ok, eat_eq_ok, ite_eq_ok, canInsertSemicolon_eq_ok, pure_eq_ok,
    unexpected_ne_ok, ↓existsAndEq, and_true, and_false, or_false, true_and, Ends]
  constructor
  · rintro ⟨b, t, ⟨rfl, h⟩ | ⟨rfl, h, rfl⟩, h'⟩
    · simp_all
    · simp_all
  · rintro (h | ⟨h, h', rfl⟩)
    · exact ⟨true, s', .inl ⟨rfl, h⟩, by simp⟩
    · exact ⟨false, s', .inr ⟨rfl, h, rfl⟩, by simp [h']⟩

@[simp]
theorem attempt_eq_ok {p : Parser α} {a : Option α} :
    attempt p s = .ok a s' ↔
      (∃ b, a = some b ∧ p s = .ok b s') ∨
        (a = none ∧ s' = s ∧ ∃ e t, p s = .error (.fault e) t) := by
  unfold attempt
  cases p s with
  | ok b t => simp [eq_comm]
  | error stop t => cases stop <;> simp [eq_comm]

/-- A look at the next token leaves the state as it was. -/
@[simp]
theorem peekKind_eq_ok :
    peekKind s = .ok k s' ↔
      s' = s ∧ ((∃ t, advance s = .ok () t ∧ k = t.kind) ∨
        (k = .eof ∧ ∃ e t, advance s = .error e t)) := by
  unfold peekKind
  cases advance s with
  | ok u t => simp [eq_comm, and_comm]
  | error e t => simp [eq_comm, and_comm]

@[simp]
theorem withLabel_eq_ok {label : Label} {p : Parser α} {a : α} :
    withLabel label p s = .ok a s' ↔ ∃ t, p (s.pushLabel label) = .ok a t ∧ s' = t.popLabel := by
  unfold withLabel ParseState.pushLabel ParseState.popLabel
  dsimp only
  split <;> rename_i h <;> simp [h, eq_comm]

@[simp]
theorem withinFunction_eq_ok {generator : Bool} {p : Parser α} {a : α} :
    withinFunction generator p s = .ok a s' ↔
      ∃ t, p (s.enterFunction generator) = .ok a t ∧ s' = t.returnTo s.scope := by
  unfold withinFunction ParseState.enterFunction ParseState.returnTo
  split <;> rename_i h <;> simp [h, eq_comm]

@[simp]
theorem checkTarget_eq_ok {isBinding : Bool} {p : Pattern} {u : Unit} :
    checkTarget isBinding p s = .ok u s' ↔
      (p.check s.scope.strict isBinding none).1 = .ok () ∧ s' = s := by
  simp only [checkTarget, bind_eq_ok, strict_eq_ok, lift_eq_ok, ↓existsAndEq, true_and]

@[simp]
theorem checkTargets_eq_ok {isBinding distinct : Bool} {targets : List Pattern} {u : Unit} :
    checkTargets isBinding distinct targets s = .ok u s' ↔
      Pattern.checkAll s.scope.strict isBinding (if distinct then some [] else none) targets =
        .ok () ∧ s' = s := by
  simp only [checkTargets, bind_eq_ok, strict_eq_ok, lift_eq_ok, ↓existsAndEq, true_and]

@[simp]
theorem refuse_eq_ok {pending : Pending} {u : Unit} :
    pending.refuse s = .ok u s' ↔ pending = none ∧ s' = s := by
  cases pending <;> simp [Pending.refuse]

end Parser

end EcmaTree
