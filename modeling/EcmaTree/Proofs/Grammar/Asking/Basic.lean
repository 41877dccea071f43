import EcmaTree.Proofs.Grammar.Trail
import EcmaTree.Proofs.Token.Division

/-!
# What a rule asks

A rule is run with two ways of answering the goals it asks. If they agree on all goals that may be
asked, it does the same with both. An operand may be asked for only behind certain tokens or where
a statement begins. Nothing is asked for behind a dot, where the reader takes a word for a name.
-/

namespace EcmaTree

open EcmaTree.Parser

namespace TokenKind

variable {k : TokenKind}

theorem beforeExpression_of_isUnary (h : k.isUnary = true) (hk : k ≠ .incDec) :
    k.beforeExpression = true := by
  unfold isUnary at h
  split at h <;> first | rfl | exact absurd rfl hk | cases h

theorem beforeExpression_of_binaryStrength? {strength : Nat}
    (h : k.binaryStrength? = some strength) : k.beforeExpression = true := by
  have hsome : k.binaryStrength?.isSome = true := Option.isSome_of_eq_some h
  unfold beforeExpression
  split <;> first | rfl | exact hsome

theorem beforeExpression_of_isAssignment (h : k.isAssignment = true) :
    k.beforeExpression = true := by
  unfold isAssignment at h
  split at h <;> first | rfl | cases h

theorem ne_dot_of_beforeExpression (h : k.beforeExpression = true) : k ≠ .dot := by
  rintro rfl
  cases h

end TokenKind

/-- A name behind which an operand may stand, `yield` or `of`. -/
def Token.IntroducesOperand (t : Token) : Prop :=
  t.kind = .name ∧ ∃ word ∈ ["yield", "of"], t.value.text? = some word

namespace ParseState

variable {s t : ParseState} {k : TokenKind}

/-- The current token does not stand behind a dot. -/
def IsFree (s : ParseState) : Prop :=
  ∃ previous contexts, previous ≠ TokenKind.dot ∧ s.stream.LiesBehind previous contexts

/-- The token before is one behind which an operand may begin. Behind it the reader lets a regular
expression begin, or it is `++` or `--`, or one of the names `yield` and `of`. -/
def IsLed (s : ParseState) : Prop :=
  ∃ w, TokenStream.Step w s.stream ∧ (w.context.expressionAllowed = true ∨
    w.token.kind = .incDec ∨ w.token.IntroducesOperand)

/-- An operand may be asked for here if statements begin at the streams that are given. -/
def Hosts (begins : TokenStream → Prop) (s : ParseState) : Prop :=
  s.IsLed ∨ begins s.stream

theorem IsFree.of_stream_eq (h : s.IsFree) (heq : t.stream = s.stream) : t.IsFree := by
  unfold IsFree
  rwa [heq]

theorem Hosts.of_stream_eq {begins : TokenStream → Prop} (h : s.Hosts begins)
    (heq : t.stream = s.stream) : t.Hosts begins := by
  unfold Hosts IsLed
  rwa [heq]

theorem isFree_of_advance (h : advance s = .ok () t) (hk : s.kind ≠ .dot) : t.IsFree := by
  obtain ⟨stream, hstream, rfl⟩ := advance_eq_ok.mp h
  exact ⟨_, _, hk, TokenStream.liesBehind_of_advance hstream⟩

theorem isFree_of_takes (h : Takes k s t) (hk : k ≠ .dot) : t.IsFree :=
  isFree_of_advance h.2 (h.1 ▸ hk)

theorem IsFree.of_ends (hs : s.IsFree) (h : Ends s t) : t.IsFree := by
  rcases h with h | ⟨-, -, rfl⟩
  · exact isFree_of_takes h (by decide)
  · exact hs

/-- Behind a token that comes before an expression one may begin. -/
theorem IsFree.allowed (h : s.IsFree) (hk : s.kind.beforeExpression = true) :
    s.stream.context.expressionAllowed = true := by
  obtain ⟨previous, contexts, hne, -, allowed, afterLineBreak, heq⟩ := h
  rw [heq]
  exact ContextStack.allowed_step _ _ _ hne hk

theorem IsFree.isLed_of_advance (h : s.IsFree) (ha : advance s = .ok () t)
    (hk : s.kind.beforeExpression = true) : t.IsLed := by
  have heof : s.kind ≠ .eof := by
    rintro heof
    rw [heof] at hk
    cases hk
  exact ⟨s.stream, Trail.step_of_advance heof ha, .inl (h.allowed hk)⟩

theorem isLed_of_word {word : String} (hw : s.isWord word = true) (hword : word ∈ ["yield", "of"])
    (ha : advance s = .ok () t) : t.IsLed := by
  have hk := kind_of_isWord hw
  have htext := eq_of_beq (Bool.and_eq_true_iff.mp hw).2
  have hstep := Trail.step_of_advance (by simp [hk]) ha
  exact ⟨s.stream, hstep, .inr (.inr ⟨hk, word, hword, htext⟩)⟩

theorem isLed_of_incDec (hk : s.kind = .incDec) (ha : advance s = .ok () t) : t.IsLed :=
  ⟨s.stream, Trail.step_of_advance (by simp [hk]) ha, .inr (.inl hk)⟩

end ParseState

/-- The goals at which an operand may begin with the first token. -/
def Goal.BeginsOperand : Goal → Prop
  | .assignment _ _ _ | .unary _ | .primary _ => True
  | .elements _ _ _ isFirst _ | .parenthesized isFirst _ => isFirst = true
  | _ => False

/-- Whether a goal is for a list that ends with a dot, which the grammar does not have. -/
def Goal.stopsAtDot : Goal → Bool
  | .statements _ stop | .elements stop _ _ _ _ | .targets stop _ _ _ => stop == .dot
  | _ => false

/-- A goal that may be asked here. -/
structure Goal.Suits (begins : TokenStream → Prop) (g : Goal) (s : ParseState) : Prop where
  free : s.IsFree
  stops : g.stopsAtDot = false
  hosts : g.BeginsOperand → s.Hosts begins

namespace Parser

variable {α β : Type} {p q : Parser α} {f g : α → Parser β} {s : ParseState} {k : TokenKind}

/-- Two parsers do the same from `s` on, and where they succeed the token that comes next does not
stand behind a dot. -/
def Same (p q : Parser α) (s : ParseState) : Prop :=
  q s = p s ∧ ∀ a t, p s = .ok a t → t.IsFree

/-- A parser that only looks at the state. -/
def Stays (p : Parser α) : Prop :=
  ∀ s a t, p s = .ok a t → t = s

section Looks

theorem stays_pure {a : α} : Stays (pure a) := fun _ _ _ h => (pure_eq_ok.mp h).2

theorem stays_get : Stays (get : Parser ParseState) := fun _ _ _ h => (get_eq_ok.mp h).2

theorem stays_token : Stays token := fun _ _ _ h => (token_eq_ok.mp h).2

theorem stays_kind : Stays kind := fun _ _ _ h => (kind_eq_ok.mp h).2

theorem stays_here : Stays here := fun _ _ _ h => (here_eq_ok.mp h).2

theorem stays_strict : Stays strict := fun _ _ _ h => (strict_eq_ok.mp h).2

theorem stays_afterLineBreak : Stays afterLineBreak := fun _ _ _ h => (afterLineBreak_eq_ok.mp h).2

theorem stays_sees : Stays (sees k) := fun _ _ _ h => (sees_eq_ok.mp h).2

theorem stays_isContextual {word : String} : Stays (isContextual word) :=
  fun _ _ _ h => (isContextual_eq_ok.mp h).2

theorem stays_canInsertSemicolon : Stays canInsertSemicolon :=
  fun _ _ _ h => (canInsertSemicolon_eq_ok.mp h).2

theorem stays_finish {start : Place} : Stays (finish start) := fun _ _ _ h => (finish_eq_ok.mp h).2

theorem stays_lastEnd {start : Place} : Stays (lastEnd start) :=
  fun _ _ _ h => (lastEnd_eq_ok.mp h).2

theorem stays_fail {fault : Fault} {place : Place} : Stays (fail fault place : Parser α) :=
  fun _ _ _ h => absurd h fail_ne_ok

theorem stays_unexpected : Stays (unexpected : Parser α) :=
  fun _ _ _ h => absurd h unexpected_ne_ok

theorem stays_lift {r : Except ParseError α} : Stays (lift r) := fun _ _ _ h => (lift_eq_ok.mp h).2

theorem stays_refuse {pending : Pending} : Stays pending.refuse :=
  fun _ _ _ h => (refuse_eq_ok.mp h).2

theorem stays_checkTarget {isBinding : Bool} {target : Pattern} :
    Stays (checkTarget isBinding target) := fun _ _ _ h => (checkTarget_eq_ok.mp h).2

theorem stays_checkTargets {isBinding distinct : Bool} {targets : List Pattern} :
    Stays (checkTargets isBinding distinct targets) := fun _ _ _ h => (checkTargets_eq_ok.mp h).2

theorem Stays.bind (hp : Stays p) (hf : ∀ a, Stays (f a)) : Stays (p >>= f) := by
  intro s b u h
  obtain ⟨a, t, ha, hb⟩ := bind_eq_ok.mp h
  exact (hf a t b u hb).trans (hp s a t ha)

theorem Stays.ite {c : Prop} [Decidable c] (hp : Stays p) (hq : Stays q) :
    Stays (if c then p else q) := by
  split
  · exact hp
  · exact hq

end Looks

namespace Same

theorem of_isFree (h : ∀ a t, p s = .ok a t → t.IsFree) : Same p p s :=
  ⟨rfl, h⟩

theorem of_stays (hs : s.IsFree) (hp : Stays p) : Same p p s :=
  of_isFree fun a t h => by
    rw [hp s a t h]
    exact hs

theorem bind_of_eq (heq : q s = p s) (hf : ∀ a t, p s = .ok a t → Same (f a) (g a) t) :
    Same (p >>= f) (q >>= g) s := by
  constructor
  · change EStateM.bind q g s = EStateM.bind p f s
    unfold EStateM.bind
    rw [heq]
    cases h : p s with
    | ok a t => exact (hf a t h).1
    | error e t => rfl
  · intro b u h
    obtain ⟨a, t, ha, hb⟩ := bind_eq_ok.mp h
    exact (hf a t ha).2 b u hb

theorem bind (hp : Same p q s) (hf : ∀ a t, p s = .ok a t → t.IsFree → Same (f a) (g a) t) :
    Same (p >>= f) (q >>= g) s :=
  bind_of_eq hp.1 fun a t h => hf a t h (hp.2 a t h)

/-- A look at the state, after which both go on. -/
theorem look (hp : Stays p) (hs : s.IsFree) (hf : ∀ a, p s = .ok a s → Same (f a) (g a) s) :
    Same (p >>= f) (p >>= g) s := by
  refine bind (of_stays hs hp) fun a t h _ => ?_
  obtain rfl := hp s a t h
  exact hf a h

theorem kind {f g : TokenKind → Parser β} (hs : s.IsFree) (hf : Same (f s.kind) (g s.kind) s) :
    Same (Parser.kind >>= f) (Parser.kind >>= g) s := by
  refine look stays_kind hs fun k h => ?_
  obtain ⟨rfl, -⟩ := kind_eq_ok.mp h
  exact hf

theorem token {f g : Token → Parser β} (hs : s.IsFree)
    (hf : Same (f s.stream.token) (g s.stream.token) s) :
    Same (Parser.token >>= f) (Parser.token >>= g) s := by
  refine look stays_token hs fun t h => ?_
  obtain ⟨rfl, -⟩ := token_eq_ok.mp h
  exact hf

/-- What is left to do after the last answer. -/
theorem ends (hp : Same p q s) (hf : ∀ a, Stays (f a)) : Same (p >>= f) (q >>= f) s :=
  hp.bind fun a _ _ ht => of_stays ht (hf a)

theorem map {f : α → β} (hp : Same p q s) : Same (f <$> p) (f <$> q) s := by
  rw [map_eq_pure_bind, map_eq_pure_bind]
  exact hp.ends fun _ => stays_pure

theorem pure {a : α} (hs : s.IsFree) : Same (pure a) (pure a) s :=
  of_stays hs stays_pure

theorem unexpected : Same (Parser.unexpected : Parser α) Parser.unexpected s :=
  of_isFree fun _ _ h => absurd h unexpected_ne_ok

theorem ite {c : Prop} [Decidable c] {p' q' : Parser α} (hp : c → Same p q s)
    (hq : ¬c → Same p' q' s) : Same (if c then p else p') (if c then q else q') s := by
  split
  · next h => exact hp h
  · next h => exact hq h

theorem advance (hk : s.kind ≠ .dot) : Same advance advance s :=
  of_isFree fun _ _ h => ParseState.isFree_of_advance h hk

theorem eat (hk : k ≠ .dot) (hs : s.IsFree) : Same (eat k) (eat k) s := by
  refine of_isFree fun b t h => ?_
  rcases eat_eq_ok.mp h with ⟨-, h⟩ | ⟨-, -, rfl⟩
  · exact ParseState.isFree_of_takes h hk
  · exact hs

theorem expect (hk : k ≠ .dot) : Same (expect k) (expect k) s :=
  of_isFree fun _ _ h => ParseState.isFree_of_takes (expect_eq_ok.mp h) hk

/-- After a token that is left behind if it is there. -/
theorem branch {p p' q q' : Parser β} (hyes : ∀ t, Takes k s t → Same p p' t)
    (hno : Same q q' s) :
    Same (Parser.eat k >>= fun b => if b = true then p else q)
      (Parser.eat k >>= fun b => if b = true then p' else q') s := by
  refine bind_of_eq rfl fun b t h => ?_
  rcases eat_eq_ok.mp h with ⟨rfl, htakes⟩ | ⟨rfl, -, rfl⟩
  · exact hyes t htakes
  · exact hno

theorem eaten {p p' q q' : Parser β} (hk : k ≠ .dot)
    (hyes : ∀ t, Takes k s t → t.IsFree → Same p p' t) (hno : Same q q' s) :
    Same (Parser.eat k >>= fun b => if b = true then p else q)
      (Parser.eat k >>= fun b => if b = true then p' else q') s :=
  branch (fun t h => hyes t h (ParseState.isFree_of_takes h hk)) hno

theorem expected {f g : Unit → Parser β} (hk : k ≠ .dot)
    (hf : ∀ t, Takes k s t → t.IsFree → Same (f ()) (g ()) t) :
    Same (Parser.expect k >>= f) (Parser.expect k >>= g) s :=
  bind (expect hk) fun _ t h ht => hf t (expect_eq_ok.mp h) ht

theorem attempt (hs : s.IsFree) (hp : Same p q s) : Same (attempt p) (attempt q) s := by
  obtain ⟨heq, hfree⟩ := hp
  constructor
  · unfold Parser.attempt
    rw [heq]
  · intro a t h
    rcases attempt_eq_ok.mp h with ⟨b, -, hb⟩ | ⟨-, rfl, -⟩
    · exact hfree b t hb
    · exact hs

theorem withLabel {label : Label} (hp : Same p q (s.pushLabel label)) :
    Same (withLabel label p) (withLabel label q) s := by
  obtain ⟨heq, hfree⟩ := hp
  constructor
  · unfold ParseState.pushLabel at heq
    unfold Parser.withLabel
    rw [heq]
  · intro a t h
    obtain ⟨u, hu, rfl⟩ := withLabel_eq_ok.mp h
    exact hfree a u hu

theorem withinFunction {generator : Bool} (hp : Same p q (s.enterFunction generator)) :
    Same (withinFunction generator p) (withinFunction generator q) s := by
  obtain ⟨heq, hfree⟩ := hp
  constructor
  · unfold ParseState.enterFunction at heq
    unfold Parser.withinFunction
    rw [heq]
  · intro a t h
    obtain ⟨u, hu, rfl⟩ := withinFunction_eq_ok.mp h
    exact hfree a u hu

end Same

end Parser

end EcmaTree
