import EcmaTree.Proofs.Grammar.Trail
import EcmaTree.Proofs.Target.Alike
import EcmaTree.Proofs.Target.Loosened

/-!
# Parses side by side

Two parses are set side by side: of two texts whose tokens correspond, of one text with
different fuel, or of one text with itself to learn what its states and places have in common.
A likeness says which states belong together, and in which respects these are the same. Two
rules agree from a state if from all states like it they come to ends that belong together,
and to another end than running out of fuel. A likeness may be lenient: then the left side may
demand more than the right side does, and where the left side fails nothing is said of the
right side. The lemmas below follow the steps of a rule: each says what lets two steps agree
together with all that comes after them.
-/

namespace EcmaTree

namespace ParseState

/-- The number of tokens from the current one on. -/
abbrev unread (s : ParseState) : Nat :=
  s.stream.unread

variable {s t : ParseState}

theorem unread_le_of_follows (h : s.Follows t) : t.unread ≤ s.unread :=
  TokenStream.unread_le_of_follows h

theorem unread_lt_of_advance (hk : s.kind ≠ .eof) (h : Parser.advance s = .ok () t) :
    t.unread < s.unread := by
  obtain ⟨stream, ha, rfl⟩ := Parser.advance_eq_ok.mp h
  have heq := TokenStream.unread_of_step ⟨hk, ha⟩
  exact Nat.lt_of_lt_of_eq (Nat.lt_succ_self _) heq.symm

/-- Where a token has been left behind there is a token before the current one. -/
theorem last_isSome_of_follows (h : s.Follows t) (hn : t.unread < s.unread) :
    t.stream.last.isSome = true :=
  TokenStream.last_isSome_of_follows h hn

theorem unread_lt_of_takes {k : TokenKind} (hk : k ≠ .eof) (h : Parser.Takes k s t) :
    t.unread < s.unread :=
  unread_lt_of_advance (h.1 ▸ hk) h.2

end ParseState

/-- Tokens of the same kind, value and text that start at corresponding places. -/
structure Token.Alike (K : Correspondence) (t t' : Token) : Prop where
  kind_eq : t'.kind = t.kind
  value_eq : t'.value = t.value
  text_eq : t'.text = t.text
  start : K.Start t.span.start t'.span.start

namespace Correspondence

variable (K : Correspondence)

/-- Nodes of the same form at corresponding places. -/
abbrev Nodes {c : Category} : Node c → Node c → Prop :=
  Node.Alike K.Spans

/-- Defaults that are pending at corresponding places, or not at all. -/
abbrev Pendings : Pending → Pending → Prop :=
  Option.Rel K.Start

/-- What is read of an expression, together with the default pending in it. -/
abbrev Readings {α : Type} (R : α → α → Prop) : α × Pending → α × Pending → Prop :=
  Prod.RProd R K.Pendings

end Correspondence

/-- The same scope, only that what is strict code on the left may be sloppy code on the right. -/
structure Scope.Loosened (lenient : Prop) (σ σ' : Scope) : Prop where
  strict : EcmaTree.Loosened lenient σ.strict σ'.strict
  inFunction_eq : σ'.inFunction = σ.inFunction
  inGenerator_eq : σ'.inGenerator = σ.inGenerator
  labels_eq : σ'.labels = σ.labels

namespace Scope.Loosened

variable {lenient : Prop} {σ σ' : Scope}

theorem refl (σ : Scope) : Loosened lenient σ σ :=
  ⟨.same _, rfl, rfl, rfl⟩

theorem eq_of_not (h : Loosened lenient σ σ') (hn : ¬lenient) : σ' = σ := by
  obtain ⟨strict, inFunction, inGenerator, labels⟩ := σ
  obtain ⟨strict', inFunction', inGenerator', labels'⟩ := σ'
  obtain ⟨hstrict, rfl, rfl, rfl⟩ := h
  cases hstrict.eq_of_not hn
  rfl

theorem withLabels (h : Loosened lenient σ σ') {labels labels' : List Label}
    (hlabels : labels' = labels) :
    Loosened lenient { σ with labels := labels } { σ' with labels := labels' } :=
  ⟨h.strict, h.inFunction_eq, h.inGenerator_eq, hlabels⟩

theorem function (h : Loosened lenient σ σ') (generator : Bool) :
    Loosened lenient ⟨σ.strict, true, generator, []⟩ ⟨σ'.strict, true, generator, []⟩ :=
  ⟨h.strict, rfl, rfl, rfl⟩

theorem turnStrict (h : Loosened lenient σ σ') :
    Loosened lenient { σ with strict := true } { σ' with strict := true } :=
  ⟨.same _, h.inFunction_eq, h.inGenerator_eq, h.labels_eq⟩

end Scope.Loosened

namespace Parser

open ParseState Reading

variable {α α' β β' : Type} {s : ParseState} {k : TokenKind}

section Runs

variable {p : Parser α} {f : α → Parser β} {a : α} {e : Stop} {t : ParseState} {label : Label}
  {generator : Bool}

theorem scan_of_ok {step : Scan Unit} {stream : TokenStream} (h : step s.stream = .ok () stream) :
    scan step s = .ok () { s with stream := stream } := by
  unfold scan
  rw [h]

theorem scan_of_error {step : Scan Unit} {fault : ParseError} {stream : TokenStream}
    (h : step s.stream = .error fault stream) :
    scan step s = .error (.fault fault) { s with stream := stream } := by
  unfold scan
  rw [h]

theorem bind_of_ok (h : p s = .ok a t) : (p >>= f) s = f a t := by
  change EStateM.bind p f s = _
  unfold EStateM.bind
  rw [h]

theorem bind_of_error (h : p s = .error e t) : (p >>= f) s = .error e t := by
  change EStateM.bind p f s = _
  unfold EStateM.bind
  rw [h]

theorem withLabel_of_ok (h : p (s.pushLabel label) = .ok a t) :
    withLabel label p s = .ok a t.popLabel :=
  withLabel_eq_ok.mpr ⟨t, h, rfl⟩

theorem withLabel_of_error (h : p (s.pushLabel label) = .error e t) :
    withLabel label p s = .error e t.popLabel := by
  unfold withLabel
  split <;> rename_i h' <;> cases h.symm.trans h'
  rfl

theorem withinFunction_of_ok (h : p (s.enterFunction generator) = .ok a t) :
    withinFunction generator p s = .ok a (t.returnTo s.scope) :=
  withinFunction_eq_ok.mpr ⟨t, h, rfl⟩

theorem withinFunction_of_error (h : p (s.enterFunction generator) = .error e t) :
    withinFunction generator p s = .error e (t.returnTo s.scope) := by
  unfold withinFunction
  split <;> rename_i h' <;> cases h.symm.trans h'
  rfl

end Runs

/-- Two ends of a parse that belong together. No parse ends so that has run out of fuel. -/
inductive SameEnd (K : Correspondence) (Alike Failed : ParseState → ParseState → Prop)
    (R : α → α' → Prop) :
    EStateM.Result Stop ParseState α → EStateM.Result Stop ParseState α' → Prop
  | ok {a : α} {a' : α'} {t t' : ParseState} (value : R a a') (alike : Alike t t') :
    SameEnd K Alike Failed R (.ok a t) (.ok a' t')
  | fault {e e' : ParseError} {t t' : ParseState} (errors : K.Errors e e')
    (failed : Failed t t') :
    SameEnd K Alike Failed R (.error (.fault e) t) (.error (.fault e') t')

/-- Which states belong together, and what the grammar finds the same in them. A failure may
leave states behind that have less in common. Tokens are left behind only before the end of
input. -/
structure Likeness extends Correspondence where
  /-- Whether the left side may demand more than the right side. -/
  Lenient : Prop
  Alike : ParseState → ParseState → Prop
  Failed : ParseState → ParseState → Prop
  token : ∀ {s s'}, Alike s s' → s.stream.token.Alike toCorrespondence s'.stream.token
  last : ∀ {s s'}, Alike s s' →
    Option.Rel toCorrespondence.Spans s.stream.last s'.stream.last
  afterLineBreak_eq : ∀ {s s'}, Alike s s' → s'.stream.afterLineBreak = s.stream.afterLineBreak
  scope : ∀ {s s'}, Alike s s' → s.scope.Loosened Lenient s'.scope
  canBeArrow_eq : ∀ {s s'}, Alike s s' →
    (s'.arrowStart == some s'.place.offset) = (s.arrowStart == some s.place.offset)
  rescope : ∀ {s s' σ σ'}, Alike s s' → Scope.Loosened Lenient σ σ' →
    Alike { s with scope := σ } { s' with scope := σ' }
  mark : ∀ {s s'}, Alike s s' → Alike { s with arrowStart := some s.place.offset }
    { s' with arrowStart := some s'.place.offset }
  advance : ∀ {s s'}, Alike s s' → s.kind ≠ .eof →
    SameEnd toCorrespondence Alike Failed Eq (Parser.advance s) (Parser.advance s')
  failed : ∀ {s s'}, Alike s s' → Failed s s'
  failed_popLabel : ∀ {s s'}, Failed s s' → Failed s.popLabel s'.popLabel
  failed_returnTo : ∀ {s s' σ σ'}, Failed s s' → Scope.Loosened Lenient σ σ' →
    Failed (s.returnTo σ) (s'.returnTo σ')

/-- Two ends of a parse that belong together, or, if that is allowed, the left one is a failure. -/
inductive Meets (L : Likeness) (R : α → α' → Prop) :
    EStateM.Result Stop ParseState α → EStateM.Result Stop ParseState α' → Prop
  | ok {a : α} {a' : α'} {t t' : ParseState} (value : R a a') (alike : L.Alike t t') :
    Meets L R (.ok a t) (.ok a' t')
  | fault {e e' : ParseError} {t t' : ParseState} (errors : L.Errors e e')
    (failed : L.Failed t t') :
    Meets L R (.error (.fault e) t) (.error (.fault e') t')
  | stopped (lenient : L.Lenient) {e : Stop} {t : ParseState}
    {y : EStateM.Result Stop ParseState α'} : Meets L R (.error e t) y

variable {L : Likeness} {R : α → α' → Prop} {S : β → β' → Prop}

theorem SameEnd.meets {x : EStateM.Result Stop ParseState α}
    {y : EStateM.Result Stop ParseState α'}
    (h : SameEnd L.toCorrespondence L.Alike L.Failed R x y) : Meets L R x y := by
  cases h with
  | ok value alike => exact .ok value alike
  | fault errors failed => exact .fault errors failed

theorem Meets.sameEnd {x : EStateM.Result Stop ParseState α}
    {y : EStateM.Result Stop ParseState α'} (h : Meets L R x y) (hn : ¬L.Lenient) :
    SameEnd L.toCorrespondence L.Alike L.Failed R x y := by
  cases h with
  | ok value alike => exact .ok value alike
  | fault errors failed => exact .fault errors failed
  | stopped lenient => exact absurd lenient hn

/-- From `s` and from all states like it two rules come to ends that belong together, with
values related by `R`. -/
def Agrees (L : Likeness) (R : α → α' → Prop) (p : Parser α) (p' : Parser α') (s : ParseState) :
    Prop :=
  ∀ s', L.Alike s s' → Meets L R (p s) (p' s')

theorem Likeness.kind_eq {s' : ParseState} (h : L.Alike s s') : s'.kind = s.kind :=
  (L.token h).kind_eq

theorem Likeness.start {s' : ParseState} (h : L.Alike s s') : L.Start s.place s'.place :=
  (L.token h).start

/-- A place that belongs to the current token is where the token like it starts. -/
theorem Likeness.offset_eq {s' : ParseState} {place : Place} (h : L.Alike s s')
    (hs : L.Start s.place place) : place.offset = s'.place.offset :=
  (Correspondence.offset_eq_iff hs (L.start h)).mpr rfl

theorem Likeness.isWord_eq {s' : ParseState} {word : String} (h : L.Alike s s') :
    s'.isWord word = s.isWord word := by
  unfold isWord
  rw [L.kind_eq h, (L.token h).value_eq]

theorem Likeness.endsStatement_eq {s' : ParseState} (h : L.Alike s s') :
    s'.endsStatement = s.endsStatement := by
  unfold endsStatement
  rw [L.kind_eq h, L.afterLineBreak_eq h]

theorem Likeness.spanFrom {s' : ParseState} {start start' : Place} (h : L.Alike s s')
    (hs : L.Start start start') : L.Spans (s.spanFrom start) (s'.spanFrom start') := by
  have hlast := L.last h
  revert hlast
  unfold ParseState.spanFrom
  generalize s.stream.last = last
  generalize s'.stream.last = last'
  rintro (hlast | _)
  · exact Correspondence.spans_closing hs hlast.stop
  · exact ⟨hs, L.stop_of_start hs⟩

theorem agrees_pure {a : α} {a' : α'} (h : R a a') : Agrees L R (pure a) (pure a') s :=
  fun _ hs => .ok h hs

theorem agrees_fail {fault : Fault} {place place' : Place} (h : L.Stop place place') :
    Agrees L R (fail fault place : Parser α) (fail fault place' : Parser α') s :=
  fun _ hs => .fault ⟨rfl, h⟩ (L.failed hs)

theorem agrees_unexpected :
    Agrees L R (unexpected : Parser α) (unexpected : Parser α') s :=
  fun _ hs => .fault (Correspondence.errors_start (L.start hs)) (L.failed hs)

theorem agrees_lift {R : α → α → Prop} {r r' : Except ParseError α}
    (h : SameOutcome L.toCorrespondence R r r') :
    Agrees L R (lift r) (lift r') s := by
  cases h with
  | ok value => exact agrees_pure value
  | error errors => exact fun _ hs => .fault errors (L.failed hs)

theorem agrees_modify {f f' : ParseState → ParseState}
    (hf : ∀ s', L.Alike s s' → L.Alike (f s) (f' s')) :
    Agrees L Eq (modify f : Parser PUnit) (modify f' : Parser PUnit) s :=
  fun s' hs => .ok rfl (hf s' hs)

theorem agrees_advance (hk : s.kind ≠ .eof) : Agrees L Eq advance advance s :=
  fun _ hs => (L.advance hs hk).meets

theorem agrees_peekKind (hk : s.kind ≠ .eof) : Agrees L Eq peekKind peekKind s := by
  intro s' hs
  have hend := L.advance hs hk
  unfold peekKind
  cases h : Parser.advance s with
  | ok u t =>
    rw [h] at hend
    cases h' : Parser.advance s' with
    | ok u' t' =>
      rw [h'] at hend
      cases hend with
      | ok _ alike => exact .ok (L.kind_eq alike).symm hs
    | error e' t' =>
      rw [h'] at hend
      cases hend
  | error e t =>
    rw [h] at hend
    cases h' : Parser.advance s' with
    | ok u' t' =>
      rw [h'] at hend
      cases hend
    | error e' t' => exact .ok rfl hs

theorem agrees_refuse {pending pending' : Pending} (h : L.Pendings pending pending') :
    Agrees L Eq pending.refuse pending'.refuse s := by
  cases h with
  | none => exact agrees_pure rfl
  | some hplace => exact agrees_fail (L.stop_of_start hplace)

namespace Agrees

variable {p q : Parser α} {p' q' : Parser α'} {f : α → Parser β} {f' : α' → Parser β'}

theorem bind (hp : Agrees L R p p' s)
    (hf : ∀ a a' t, R a a' → p s = .ok a t → Agrees L S (f a) (f' a') t) :
    Agrees L S (p >>= f) (p' >>= f') s := by
  intro s' hs
  have hend := hp s' hs
  generalize h : p s = x at hend
  generalize h' : p' s' = y at hend
  cases hend with
  | ok value alike =>
    rw [bind_of_ok h, bind_of_ok h']
    exact hf _ _ _ value h _ alike
  | fault errors failed =>
    rw [bind_of_error h, bind_of_error h']
    exact .fault errors failed
  | stopped lenient =>
    rw [bind_of_error h]
    exact .stopped lenient

/-- Where the left side may fail, it can be taken to come to its end. -/
theorem of_ok (h : (L.Lenient → ∃ a t, p s = .ok a t) → Agrees L R p p' s) :
    Agrees L R p p' s := by
  intro s' hs
  cases hp : p s with
  | ok a t => exact hp ▸ h (fun _ => ⟨a, t, hp⟩) s' hs
  | error e t =>
    by_cases lenient : L.Lenient
    · exact .stopped lenient
    · exact hp ▸ h (fun hl => absurd hl lenient) s' hs

/-- A step without a value. -/
theorem seq {p p' : Parser Unit} {q : Parser β} {q' : Parser β'} (hp : Agrees L Eq p p' s)
    (hq : ∀ t, p s = .ok () t → Agrees L S q q' t) :
    Agrees L S (p >>= fun _ => q) (p' >>= fun _ => q') s :=
  hp.bind fun _ _ t _ => hq t

theorem map {g : α → β} {g' : α' → β'} (hp : Agrees L R p p' s)
    (hg : ∀ a a', R a a' → S (g a) (g' a')) :
    Agrees L S (g <$> p) (g' <$> p') s := by
  rw [map_eq_pure_bind, map_eq_pure_bind]
  exact hp.bind fun a a' _ ha _ => agrees_pure (hg a a' ha)

theorem ite {c : Prop} [Decidable c] (hp : c → Agrees L R p p' s)
    (hq : ¬c → Agrees L R q q' s) :
    Agrees L R (if c then p else q) (if c then p' else q') s := by
  split
  · exact hp ‹_›
  · exact hq ‹_›

/-- A refusal, which the left side may have more reason for. -/
theorem iteLoosened {b b' : Bool} (hb : Loosened L.Lenient b b') {fault : Fault}
    {place place' : Place}
    (hplace : Agrees L R (Parser.fail fault place) (Parser.fail fault place') s)
    (hq : Agrees L R q q' s) :
    Agrees L R (if b = true then Parser.fail fault place else q)
      (if b' = true then Parser.fail fault place' else q') s := by
  cases hb with
  | same => exact ite (fun _ => hplace) fun _ => hq
  | dropped lenient => exact fun _ _ => .stopped lenient

/-- A step that only reads the state. -/
theorem read {f' : α → Parser β'} {x : Parser α} {a : ParseState → α} (hx : ∀ t, x t = .ok (a t) t)
    (hf : ∀ s', L.Alike s s' → Agrees L S (f (a s)) (f' (a s')) s) :
    Agrees L S (x >>= f) (x >>= f') s := by
  intro s' hs
  rw [bind_of_ok (hx s), bind_of_ok (hx s')]
  exact hf s' hs s' hs

theorem get {f : ParseState → Parser β} {f' : ParseState → Parser β'}
    (hf : ∀ s', L.Alike s s' → Agrees L S (f s) (f' s') s) :
    Agrees L S (get >>= f) (get >>= f') s :=
  read (fun _ => rfl) hf

theorem here {f : Place → Parser β} {f' : Place → Parser β'}
    (hf : ∀ p', L.Start s.place p' → Agrees L S (f s.place) (f' p') s) :
    Agrees L S (here >>= f) (here >>= f') s :=
  read (fun _ => here_eq_ok.mpr ⟨rfl, rfl⟩) fun _ hs => hf _ (L.start hs)

theorem token {f : Token → Parser β} {f' : Token → Parser β'}
    (hf : ∀ t', s.stream.token.Alike L.toCorrespondence t' →
      Agrees L S (f s.stream.token) (f' t') s) :
    Agrees L S (token >>= f) (token >>= f') s :=
  read (fun _ => token_eq_ok.mpr ⟨rfl, rfl⟩) fun _ hs => hf _ (L.token hs)

/-- A step that reads what like states have in common. -/
theorem readSame {f' : α → Parser β'} {x : Parser α} {a : ParseState → α}
    (hx : ∀ t, x t = .ok (a t) t)
    (ha : ∀ s', L.Alike s s' → a s' = a s) (hf : Agrees L S (f (a s)) (f' (a s)) s) :
    Agrees L S (x >>= f) (x >>= f') s := by
  apply read hx
  intro s' hs
  rw [ha s' hs]
  exact hf

theorem kind {f : TokenKind → Parser β} {f' : TokenKind → Parser β'}
    (hf : Agrees L S (f s.kind) (f' s.kind) s) :
    Agrees L S (kind >>= f) (kind >>= f') s :=
  readSame (fun _ => kind_eq_ok.mpr ⟨rfl, rfl⟩) (fun _ => L.kind_eq) hf

theorem strict {f : Bool → Parser β} {f' : Bool → Parser β'}
    (hf : ∀ b b', Loosened L.Lenient b b' → Agrees L S (f b) (f' b') s) :
    Agrees L S (strict >>= f) (strict >>= f') s :=
  read (fun _ => strict_eq_ok.mpr ⟨rfl, rfl⟩) fun _ hs => hf _ _ (L.scope hs).strict

theorem sees {f : Bool → Parser β} {f' : Bool → Parser β'}
    (hf : Agrees L S (f (s.kind == k)) (f' (s.kind == k)) s) :
    Agrees L S (sees k >>= f) (sees k >>= f') s :=
  readSame (fun _ => sees_eq_ok.mpr ⟨rfl, rfl⟩) (fun _ hs => congrArg (· == k) (L.kind_eq hs)) hf

theorem isContextual {word : String} {f : Bool → Parser β} {f' : Bool → Parser β'}
    (hf : Agrees L S (f (s.isWord word)) (f' (s.isWord word)) s) :
    Agrees L S (isContextual word >>= f) (isContextual word >>= f') s :=
  readSame (fun _ => isContextual_eq_ok.mpr ⟨rfl, rfl⟩) (fun _ => L.isWord_eq) hf

theorem afterLineBreak {f : Bool → Parser β} {f' : Bool → Parser β'}
    (hf : Agrees L S (f s.stream.afterLineBreak) (f' s.stream.afterLineBreak) s) :
    Agrees L S (afterLineBreak >>= f) (afterLineBreak >>= f') s :=
  readSame (fun _ => afterLineBreak_eq_ok.mpr ⟨rfl, rfl⟩) (fun _ => L.afterLineBreak_eq) hf

theorem canInsertSemicolon {f : Bool → Parser β} {f' : Bool → Parser β'}
    (hf : Agrees L S (f s.endsStatement) (f' s.endsStatement) s) :
    Agrees L S (canInsertSemicolon >>= f) (canInsertSemicolon >>= f') s :=
  readSame (fun _ => canInsertSemicolon_eq_ok.mpr ⟨rfl, rfl⟩) (fun _ => L.endsStatement_eq) hf

theorem finish {start start' : Place} {f : Span → Parser β} {f' : Span → Parser β'}
    (hs : L.Start start start')
    (hf : ∀ sp sp', L.Spans sp sp' → Agrees L S (f sp) (f' sp') s) :
    Agrees L S (finish start >>= f) (finish start' >>= f') s := by
  intro s' ha
  have hrun : ∀ {γ : Type} {g : Span → Parser γ} {t : ParseState} {p : Place},
      (Parser.finish p >>= g) t = g (t.spanFrom p) t := by
    intro γ g t p
    exact bind_of_ok (finish_eq_ok.mpr ⟨rfl, rfl⟩)
  rw [hrun, hrun]
  exact hf _ _ (L.spanFrom ha hs) s' ha

/-- The end of the previous token, where there is one. -/
theorem lastEnd {start start' : Place} {f : Place → Parser β} {f' : Place → Parser β'}
    (hl : s.stream.last.isSome = true)
    (hf : ∀ q q', L.Stop q q' → Agrees L S (f q) (f' q') s) :
    Agrees L S (lastEnd start >>= f) (lastEnd start' >>= f') s := by
  intro s' ha
  have hrun : ∀ {γ : Type} {g : Place → Parser γ} {t : ParseState} {p : Place},
      (Parser.lastEnd p >>= g) t = g (t.lastEnd p) t := by
    intro γ g t p
    exact bind_of_ok (lastEnd_eq_ok.mpr ⟨rfl, rfl⟩)
  have hstop : L.Stop (s.lastEnd start) (s'.lastEnd start') := by
    have hlast := L.last ha
    unfold ParseState.lastEnd
    revert hl hlast
    generalize s.stream.last = last
    generalize s'.stream.last = last'
    rintro hl (hlast | _)
    · exact hlast.stop
    · cases hl
  rw [hrun, hrun]
  exact hf _ _ hstop s' ha

/-- After a token that is not the end of input fewer tokens are left. -/
theorem advance {q : Parser β} {q' : Parser β'} (hk : s.kind ≠ .eof)
    (hf : ∀ t, s.Follows t → t.unread < s.unread → Agrees L S q q' t) :
    Agrees L S (advance >>= fun _ => q) (advance >>= fun _ => q') s :=
  (agrees_advance hk).seq fun t h =>
    hf t (Trail.follows_of_advance hk h) (unread_lt_of_advance hk h)

theorem eat {f : Bool → Parser β} {f' : Bool → Parser β'} (hk : k ≠ .eof)
    (htrue : ∀ t, s.Follows t → t.unread < s.unread → Agrees L S (f true) (f' true) t)
    (hfalse : s.kind ≠ k → Agrees L S (f false) (f' false) s) :
    Agrees L S (eat k >>= f) (eat k >>= f') s := by
  unfold Parser.eat
  rw [bind_assoc, bind_assoc]
  apply sees
  cases h : s.kind == k with
  | true =>
    have hs : s.kind = k := beq_iff_eq.mp h
    simp only [if_true, bind_assoc, pure_bind]
    exact advance (hs ▸ hk) htrue
  | false =>
    simp only [Bool.false_eq_true, if_false, pure_bind]
    exact hfalse (beq_eq_false_iff_ne.mp h)

/-- A token of kind `k` decides between two continuations. -/
theorem eatElse {p q : Parser β} {p' q' : Parser β'} (hk : k ≠ .eof)
    (htrue : ∀ t, s.Follows t → t.unread < s.unread → Agrees L S p p' t)
    (hfalse : s.kind ≠ k → Agrees L S q q' s) :
    Agrees L S (Parser.eat k >>= fun b => if b = true then p else q)
      (Parser.eat k >>= fun b => if b = true then p' else q') s :=
  eat hk htrue hfalse

/-- The kind of the current token decides between two continuations. -/
theorem seesElse {p q : Parser β} {p' q' : Parser β'} (htrue : s.kind = k → Agrees L S p p' s)
    (hfalse : s.kind ≠ k → Agrees L S q q' s) :
    Agrees L S (Parser.sees k >>= fun b => if b = true then p else q)
      (Parser.sees k >>= fun b => if b = true then p' else q') s := by
  apply sees
  apply ite
  · intro h
    exact htrue (beq_iff_eq.mp h)
  · intro h
    exact hfalse fun he => h (beq_iff_eq.mpr he)

/-- A look at the current token that is not always taken. -/
theorem seesIf {c : Prop} [Decidable c] {f : Bool → Parser β} {f' : Bool → Parser β'}
    (hf : ∀ b, Agrees L S (f b) (f' b) s) :
    Agrees L S ((if c then Parser.sees k else Pure.pure false) >>= f)
      ((if c then Parser.sees k else Pure.pure false) >>= f') s := by
  split
  · exact sees (hf _)
  · exact hf false

theorem canInsertSemicolon_self :
    Agrees L Eq Parser.canInsertSemicolon Parser.canInsertSemicolon s :=
  kind (afterLineBreak (agrees_pure rfl))

theorem sees_self : Agrees L Eq (Parser.sees k) (Parser.sees k) s :=
  kind (agrees_pure rfl)

theorem eat_self (hk : k ≠ .eof) : Agrees L Eq (Parser.eat k) (Parser.eat k) s := by
  unfold Parser.eat
  apply seesElse
  · rintro rfl
    exact (agrees_advance hk).seq fun _ _ => agrees_pure rfl
  · intro _
    exact agrees_pure rfl

theorem expect_self (hk : k ≠ .eof) : Agrees L Eq (Parser.expect k) (Parser.expect k) s := by
  unfold Parser.expect
  apply eatElse hk
  · intro t _ _
    exact agrees_pure rfl
  · intro _
    exact agrees_unexpected

/-- A list may close here, in which case nothing more is read of it. -/
theorem closing {x : Parser Bool} {p q : Parser β} {p' q' : Parser β'}
    (hx : x = Parser.eat k ∨ x = Pure.pure false) (hk : k ≠ .eof)
    (hclosed : ∀ t, Agrees L S p p' t) (hopen : Agrees L S q q' s) :
    Agrees L S (x >>= fun b => if b = true then p else q)
      (x >>= fun b => if b = true then p' else q') s := by
  rcases hx with rfl | rfl
  · exact eatElse hk (fun t _ _ => hclosed t) fun _ => hopen
  · exact hopen

theorem expect {q : Parser β} {q' : Parser β'} (hk : k ≠ .eof)
    (hf : ∀ t, s.Follows t → t.unread < s.unread → Agrees L S q q' t) :
    Agrees L S (expect k >>= fun _ => q) (expect k >>= fun _ => q') s := by
  refine (expect_self hk).seq fun t h => ?_
  have htakes := expect_eq_ok.mp h
  exact hf t (Trail.follows_of_takes htakes hk) (unread_lt_of_takes hk htakes)

theorem separator {isFirst : Bool} {q : Parser β} {q' : Parser β'}
    (hf : ∀ t, Separator isFirst s t → Agrees L S q q' t) :
    Agrees L S ((if isFirst = true then Pure.pure () else Parser.expect .comma) >>= fun _ => q)
      ((if isFirst = true then Pure.pure () else Parser.expect .comma) >>= fun _ => q') s := by
  cases isFirst with
  | true => exact hf s (.first s)
  | false => exact (expect_self (by decide)).seq fun t h => hf t (.comma (expect_eq_ok.mp h))

/-- An attempt that fails on one side fails on the other. Where the left side may demand more,
an attempt that fails on the left has to fail on the right for another reason. -/
theorem attempt (hp : Agrees L R p p' s)
    (hfails : L.Lenient → ∀ s' e t, L.Alike s s' → p s = .error e t →
      ∃ fault t', p' s' = .error (.fault fault) t') :
    Agrees L (Option.Rel R) (attempt p) (attempt p') s := by
  intro s' hs
  have hend := hp s' hs
  unfold Parser.attempt
  generalize h : p s = x at hend
  generalize h' : p' s' = y at hend
  cases hend with
  | ok value alike => exact .ok (.some value) alike
  | fault errors failed => exact .ok .none hs
  | @stopped lenient e t =>
    obtain ⟨fault, t', hfault⟩ := hfails lenient s' e t hs h
    obtain rfl := h'.symm.trans hfault
    cases e with
    | fault => exact .ok .none hs
    | exhausted => exact .stopped lenient

theorem withLabel {label : Label} (hp : Agrees L R p p' (s.pushLabel label)) :
    Agrees L R (withLabel label p) (withLabel label p') s := by
  intro s' hs
  have hscope := L.scope hs
  have hpush : L.Alike (s.pushLabel label) (s'.pushLabel label) :=
    L.rescope hs (hscope.withLabels (congrArg (label :: ·) hscope.labels_eq))
  have hend := hp _ hpush
  generalize h : p (s.pushLabel label) = x at hend
  generalize h' : p' (s'.pushLabel label) = y at hend
  cases hend with
  | ok value alike =>
    have hafter := L.scope alike
    rw [withLabel_of_ok h, withLabel_of_ok h']
    exact .ok value (L.rescope alike (hafter.withLabels (congrArg List.tail hafter.labels_eq)))
  | fault errors failed =>
    rw [withLabel_of_error h, withLabel_of_error h']
    exact .fault errors (L.failed_popLabel failed)
  | stopped lenient =>
    rw [withLabel_of_error h]
    exact .stopped lenient

theorem withinFunction {generator : Bool} (hp : Agrees L R p p' (s.enterFunction generator)) :
    Agrees L R (withinFunction generator p) (withinFunction generator p') s := by
  intro s' hs
  have hscope := L.scope hs
  have henter : L.Alike (s.enterFunction generator) (s'.enterFunction generator) :=
    L.rescope hs (hscope.function generator)
  have hend := hp _ henter
  generalize h : p (s.enterFunction generator) = x at hend
  generalize h' : p' (s'.enterFunction generator) = y at hend
  cases hend with
  | ok value alike =>
    rw [withinFunction_of_ok h, withinFunction_of_ok h']
    exact .ok value (L.rescope alike hscope)
  | fault errors failed =>
    rw [withinFunction_of_error h, withinFunction_of_error h']
    exact .fault errors (L.failed_returnTo failed hscope)
  | stopped lenient =>
    rw [withinFunction_of_error h]
    exact .stopped lenient

end Agrees

/-- Two checks, of which the right one may demand less. -/
theorem agrees_check {r r' r'' : Except ParseError Unit}
    (h : SameOutcome L.toCorrespondence Eq r r') (hsame : ¬L.Lenient → r'' = r')
    (hless : L.Lenient → r' = .ok () → r'' = .ok ()) : Agrees L Eq (lift r) (lift r'') s := by
  by_cases lenient : L.Lenient
  · cases h with
    | ok =>
      rw [hless lenient rfl]
      exact agrees_lift (.ok rfl)
    | error => exact fun _ _ => .stopped lenient
  · rw [hsame lenient]
    exact agrees_lift h

theorem agrees_checkTarget {isBinding : Bool} {p p' : Pattern} (h : L.Nodes p p') :
    Agrees L Eq (checkTarget isBinding p) (checkTarget isBinding p') s := by
  apply Agrees.strict
  intro strict strict' hstrict
  apply agrees_check (check_alike h strict isBinding none).1
  · intro hn
    rw [hstrict.eq_of_not hn]
  · intro _
    exact Pattern.fst_check_of_check hstrict.imp

theorem agrees_checkTargets {isBinding distinct distinct' : Bool} {ps ps' : List Pattern}
    (h : List.Forall₂ L.Nodes ps ps') (hdistinct : Loosened L.Lenient distinct distinct') :
    Agrees L Eq (checkTargets isBinding distinct ps) (checkTargets isBinding distinct' ps') s := by
  apply Agrees.strict
  intro strict strict' hstrict
  apply agrees_check (checkAll_alike h strict isBinding _)
  · intro hn
    rw [hstrict.eq_of_not hn, hdistinct.eq_of_not hn]
  · intro _
    exact Pattern.checkAll_of_checkAll hstrict.imp (Pattern.looserNames_of_loosened hdistinct)

/-- A check that the left side makes alone. -/
theorem agrees_checkTarget_left (lenient : L.Lenient) {isBinding : Bool} {p : Pattern}
    {q : Parser β} {q' : Parser β'} (hq : Agrees L S q q' s) :
    Agrees L S (checkTarget isBinding p >>= fun _ => q) q' s := by
  intro s' hs
  cases h : checkTarget isBinding p s with
  | ok u t =>
    obtain ⟨-, rfl⟩ := checkTarget_eq_ok.mp h
    rw [bind_of_ok h]
    exact hq s' hs
  | error e t =>
    rw [bind_of_error h]
    exact .stopped lenient

end Parser

end EcmaTree
