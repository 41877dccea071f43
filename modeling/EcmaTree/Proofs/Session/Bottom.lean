import EcmaTree.Proofs.Token.Balance
import EcmaTree.Proofs.Token.Calls
import EcmaTree.Session

/-!
# The contexts never lose their bottom

The block of the whole program lies below all contexts. A closing parenthesis or brace may take
off two contexts, and only the first of them is guarded; a backquote takes off its template without
a guard. Still the bottom stays, because a context that is taken off without a guard is never that
of a block. This holds of every state that reading comes to, on whatever text, also after a step
that failed and after a copy of an earlier state has been put back.
-/

namespace EcmaTree

namespace ContextStack

/-- The block of the whole program lies at the bottom. -/
def IsBased (contexts : List Context) : Prop :=
  contexts.getLast? = some .braceStatement

variable {contexts : List Context} {context : Context}

theorem IsBased.ne_nil (h : IsBased contexts) : contexts ≠ [] := by
  rintro rfl
  cases h

theorem IsBased.cons (h : IsBased contexts) (context : Context) :
    IsBased (context :: contexts) := by
  rw [IsBased, List.getLast?_cons, h]
  rfl

/-- A context that is not the bottom can be taken off. -/
theorem IsBased.of_cons (h : IsBased (context :: contexts))
    (hne : contexts ≠ [] ∨ context ≠ .braceStatement) : IsBased contexts := by
  cases contexts with
  | nil =>
    rcases hne with hne | hne
    · exact absurd rfl hne
    · exact absurd (Option.some.inj h) hne
  | cons next below => rwa [IsBased, List.getLast?_cons_cons] at h

/-- How the contexts behind a token of a kind come from those before it. -/
inductive Moves (kind : TokenKind) (before after : List Context) : Prop
  | stay (eq : after = before)
  | push (context : Context) (eq : after = context :: before)
  | close (context : Context) (closes : kind.closesContext = true) (ne_nil : after ≠ [])
      (eq : before = context :: after)
  | closeFunction (closes : kind.closesContext = true)
      (eq : before = .braceStatement :: .functionExpression :: after)
  | endQuote (quote : kind = .backQuote) (eq : before = .quoteTemplate :: after)

theorem moves_closed {kind : TokenKind} (h : kind.closesContext = true) (contexts : List Context) :
    Moves kind contexts (closed contexts) := by
  unfold closed
  split
  · exact .stay rfl
  · exact .stay rfl
  · exact .closeFunction h rfl
  · rename_i context below hone _
    exact .close context h hone rfl

/-- What one token does: it takes off one context or two where it closes, one where it is a
backquote, and otherwise none. -/
theorem moves_step (c : ContextStack) (previous kind : TokenKind) (afterLineBreak : Bool) :
    Moves kind c.stack (c.step previous kind afterLineBreak).stack := by
  cases hopens : kind.opensContext with
  | false =>
    rw [stack_step c previous afterLineBreak hopens, closedBy]
    split
    · exact moves_closed ‹_› _
    · exact .stay rfl
  | true =>
    cases kind with
    | braceL =>
      obtain ⟨context, -, -, heq⟩ := stack_step_braceL c previous afterLineBreak
      exact .push context heq
    | parenL =>
      obtain ⟨context, -, -, heq⟩ := stack_step_parenL c previous afterLineBreak
      exact .push context heq
    | dollarBraceL => exact .push .braceTemplate rfl
    | backQuote =>
      change Moves .backQuote c.stack c.backQuote.stack
      unfold backQuote
      split
      · rename_i htop
        unfold top at htop
        cases hstack : c.stack with
        | nil => rw [hstack] at htop; cases htop
        | cons context below =>
          rw [hstack] at htop
          exact .endQuote rfl (congrArg (· :: below) (eq_of_beq htop))
      · exact .push .quoteTemplate rfl
    | keyword word =>
      cases word with
      | function =>
        rcases stack_step_function c previous afterLineBreak with heq | heq
        · exact .stay heq
        · exact .push .functionExpression heq
      | _ => cases hopens
    | _ => cases hopens

theorem IsBased.of_moves {kind : TokenKind} {before after : List Context}
    (h : Moves kind before after) (hb : IsBased before) : IsBased after := by
  cases h with
  | stay eq => rwa [eq]
  | push context eq =>
    rw [eq]
    exact hb.cons context
  | close context _ ne_nil eq =>
    rw [eq] at hb
    exact hb.of_cons (.inl ne_nil)
  | closeFunction _ eq =>
    rw [eq] at hb
    exact (hb.of_cons (.inl (List.cons_ne_nil _ _))).of_cons (.inr nofun)
  | endQuote _ eq =>
    rw [eq] at hb
    exact hb.of_cons (.inr nofun)

end ContextStack

namespace TokenStream

open ContextStack

/-- What reading one token does to the contexts. -/
theorem moves_of_read {s t : TokenStream} {u : Unit} (h : read s = .ok u t) :
    Moves t.token.kind s.context.stack t.context.stack := by
  obtain ⟨-, allowed, afterLineBreak, hcontext⟩ := liesBehind_of_read h
  rw [hcontext]
  exact moves_step ⟨s.context.stack, allowed⟩ _ _ _

theorem isBased_of_called {text : List Char} {s : TokenStream} (h : Called text s) :
    IsBased s.context.stack := by
  refine called_induction (P := fun s => IsBased s.context.stack) rfl (fun _ hs => hs)
    (fun s hs => ?_) h
  cases hr : read s with
  | ok u t => exact hs.of_moves (moves_of_read hr)
  | error e t =>
    change IsBased t.context.stack
    rwa [(of_read_error hr).2]

end TokenStream

/-- Steps that read tokens, and steps that take copies of the state and put them back. -/
inductive Step.OnlyReads : Step → Prop
  | read : OnlyReads .read
  | advance : OnlyReads .advance
  | save (slot : String) (shared : Bool) : OnlyReads (.save slot shared)
  | load (slot : String) : OnlyReads (.load slot)
  | swap (slot : String) : OnlyReads (.swap slot)
  | attempt {steps : List Step} (fails : Bool) (each : ∀ step ∈ steps, OnlyReads step) :
    OnlyReads (.attempt steps fails)
  | look {steps : List Step} (each : ∀ step ∈ steps, OnlyReads step) : OnlyReads (.look steps)

namespace Session

/-- The session that a run leaves behind, also if it fails. -/
def leftBy {α : Type} : EStateM.Result Stop Session α → Session
  | .ok _ s => s
  | .error _ s => s

/-- The sessions that reading a text and putting back earlier states come to. -/
abbrev Reached (options : ParseOptions) (source : List Char) : Session → Prop :=
  Relation.ReflTransGen (fun s t => ∃ step : Step, step.OnlyReads ∧ t = leftBy (run step s))
    (ofText options source)

/-- The property holds of the stream of the current state and of those of all copies. -/
structure Holds (P : TokenStream → Prop) (s : Session) : Prop where
  current : P s.current.state.stream
  slots : ∀ slot ∈ s.slots, P slot.2.state.stream

section Holds

variable {P : TokenStream → Prop} {s : Session}

theorem Holds.become (h : s.Holds P) {state : ParseState} (hstate : P state.stream) :
    (s.become state).Holds P := by
  unfold Session.become
  dsimp only
  split <;> exact ⟨hstate, h.slots⟩

theorem Holds.setSlot (h : s.Holds P) (name : String) {snapshot : Option Snapshot}
    (hsnapshot : ∀ x ∈ snapshot, P x.state.stream) : (s.setSlot name snapshot).Holds P := by
  refine ⟨h.current, fun slot hslot => ?_⟩
  cases snapshot with
  | none => exact h.slots slot (List.mem_filter.mp hslot).1
  | some x =>
    rcases List.mem_cons.mp hslot with rfl | hslot
    · exact hsnapshot x rfl
    · exact h.slots slot (List.mem_filter.mp hslot).1

theorem Holds.of_slot? (h : s.Holds P) {name : String} {snapshot : Snapshot}
    (hs : s.slot? name = some snapshot) : P snapshot.state.stream := by
  obtain ⟨before, after, heq, -⟩ := List.lookup_eq_some_iff.mp hs
  exact h.slots (name, snapshot) (heq ▸ List.mem_append_right before List.mem_cons_self)

/-- A step of the stream, run on the current state. -/
theorem Holds.scan (h : s.Holds P) {step : Scan Unit}
    (hstep : P (TokenStream.leftBy (step s.current.state.stream))) (reply : Reply) :
    (leftBy ((do parsing (Parser.scan step); return reply : Action Reply) s)).Holds P := by
  have heq : leftBy ((do parsing (Parser.scan step); return reply : Action Reply) s) =
      s.become { s.current.state with
        stream := TokenStream.leftBy (step s.current.state.stream) } := by
    cases hr : step s.current.state.stream <;>
      simp [leftBy, parsing, Parser.scan, hr, TokenStream.leftBy, bind, EStateM.bind, pure,
        EStateM.pure]
  rw [heq]
  exact h.become hstep

theorem Holds.save (h : s.Holds P) (slot : String) (shared : Bool) :
    (leftBy (save slot shared s)).Holds P := by
  have hset : ∀ mark, (s.setSlot slot (some ⟨s.current.state, mark⟩)).Holds P := by
    intro mark
    refine h.setSlot slot ?_
    rintro x ⟨⟩
    exact h.current
  cases shared with
  | true => exact hset s.current.mark
  | false => exact ⟨(hset s.nextMark).current, (hset s.nextMark).slots⟩

theorem leftBy_modify (f : Session → Session) : leftBy ((modify f : Action Unit) s) = f s :=
  rfl

/-- A copy that is put back, and the state that may be kept in its place. -/
theorem Holds.load (h : s.Holds P) (slot : String) (exchange : Bool) :
    (leftBy (load slot exchange s)).Holds P := by
  rw [Session.load, leftBy_modify]
  cases hslot : s.slot? slot with
  | none => exact h
  | some snapshot =>
    have hset : (s.setSlot slot (if exchange then some s.current else none)).Holds P := by
      refine h.setSlot slot fun x hx => ?_
      cases exchange with
      | true =>
        obtain rfl := Option.some.inj hx
        exact h.current
      | false => cases hx
    exact ⟨h.of_slot? hslot, hset.slots⟩

theorem Holds.endAttempt {p : Played} (h : s.Holds P) (hp : p.session.Holds P) (fails : Bool) :
    (leftBy (endAttempt s fails p)).Holds P := by
  unfold Session.endAttempt
  split
  · exact hp
  · dsimp only
    split
    · exact ⟨h.current, hp.slots⟩
    · exact hp

theorem Holds.endLook {p : Played} (h : s.Holds P) (hp : p.session.Holds P) :
    (leftBy (endLook s p)).Holds P := by
  unfold Session.endLook
  split
  · exact hp
  · exact ⟨h.current, hp.slots⟩

/-- Steps that keep a property of all streams do so when they are played one after the other. -/
theorem Holds.play {steps : List Step}
    (each : ∀ step ∈ steps, ∀ s : Session, s.Holds P → (leftBy (run step s)).Holds P)
    (h : s.Holds P) : (play steps s).session.Holds P := by
  induction steps generalizing s with
  | nil => exact h
  | cons step steps ih =>
    obtain ⟨hstep, each⟩ := List.forall_mem_cons.mp each
    have hs := hstep s h
    cases hr : run step s with
    | ok reply t =>
      have hplay : (Session.play (step :: steps) s).session = (Session.play steps t).session := by
        rw [Session.play, hr]
      rw [hr] at hs
      exact hplay ▸ ih each hs
    | error stop t =>
      have hplay : (Session.play (step :: steps) s).session = t := by
        rw [Session.play, hr]
      rw [hr] at hs
      exact hplay ▸ hs

/-- A property of streams that reading keeps is kept by all steps that only read. By induction on
the step, for the steps within an attempt. -/
theorem Holds.run (hread : ∀ s, P s → P (TokenStream.leftBy (TokenStream.read s)))
    (hadvance : ∀ s, P s → P (TokenStream.leftBy (TokenStream.advance s))) {step : Step}
    (hstep : step.OnlyReads) : ∀ s : Session, s.Holds P → (leftBy (run step s)).Holds P := by
  induction hstep with
  | read => exact fun s hs => hs.scan (hread _ hs.current) .nothing
  | advance => exact fun s hs => hs.scan (hadvance _ hs.current) .nothing
  | save slot shared => exact fun s hs => hs.save slot shared
  | load slot => exact fun s hs => hs.load slot false
  | swap slot => exact fun s hs => hs.load slot true
  | attempt fails each ih => exact fun s hs => hs.endAttempt (hs.play ih) fails
  | look each ih => exact fun s hs => hs.endLook (hs.play ih)

end Holds

variable {options : ParseOptions} {source : List Char} {s : Session}

/-- All states of a session that only reads are such as calls of the reader come to. -/
theorem holds_called_of_reached (h : Reached options source s) :
    s.Holds (TokenStream.Called source) := by
  induction h with
  | refl => exact ⟨.refl, fun _ hslot => absurd hslot List.not_mem_nil⟩
  | tail _ hstep ih =>
    obtain ⟨step, honly, rfl⟩ := hstep
    exact Holds.run (fun _ hs => hs.tail .read) (fun _ hs => hs.tail .advance) honly _ ih

/-- The states of a session: the current one and the copies. -/
def states (s : Session) : List ParseState :=
  s.current.state :: s.slots.map fun slot => slot.2.state

/-- Whatever is read, on whatever text, and whatever copies of earlier states are put back, also
after steps that failed: the contexts of every state are not empty, and the lowest of them is the
block of the program. Still the next token may take off two contexts where it closes, and one where
it is a backquote. -/
theorem based_of_reached (h : Reached options source s) : ∀ state ∈ s.states,
    (state.stream.context.stack ≠ [] ∧
      state.stream.context.stack.getLast? = some .braceStatement) ∧
    ∀ call ∈ [TokenStream.read, TokenStream.advance], ∀ t, call state.stream = .ok () t →
      ContextStack.Moves t.token.kind state.stream.context.stack t.context.stack := by
  have hholds := holds_called_of_reached h
  intro state hstate
  have hcalled : TokenStream.Called source state.stream := by
    rcases List.mem_cons.mp hstate with rfl | hstate
    · exact hholds.current
    · obtain ⟨slot, hslot, rfl⟩ := List.mem_map.mp hstate
      exact hholds.slots slot hslot
  have hbased := TokenStream.isBased_of_called hcalled
  refine ⟨⟨hbased.ne_nil, hbased⟩, fun call hcall t ht => ?_⟩
  rcases List.mem_pair.mp hcall with rfl | rfl
  · exact TokenStream.moves_of_read ht
  · exact TokenStream.moves_of_read (s := state.stream.recorded) ht

/-- Behind two tokens that close nothing an unterminated template is met, and the state before them
is put back. -/
theorem based_of_reached_restored :
    ∃ s, Reached {} ")\x7d`a".toList s ∧ s.current.state.stream.token.kind = .parenR ∧
      ∀ state ∈ s.states,
        (state.stream.context.stack ≠ [] ∧
          state.stream.context.stack.getLast? = some .braceStatement) ∧
        ∀ call ∈ [TokenStream.read, TokenStream.advance], ∀ t, call state.stream = .ok () t →
          ContextStack.Moves t.token.kind state.stream.context.stack t.context.stack := by
  let first := leftBy (run .read (ofText {} ")\x7d`a".toList))
  let saved := leftBy (run (.save "first" false) first)
  let second := leftBy (run .advance saved)
  let third := leftBy (run .advance second)
  let failed := leftBy (run .advance third)
  have hsaved : Reached {} ")\x7d`a".toList saved :=
    (Relation.ReflTransGen.single ⟨.read, .read, rfl⟩).tail ⟨_, .save "first" false, rfl⟩
  have hfailed : Reached {} ")\x7d`a".toList failed :=
    ((hsaved.tail ⟨_, .advance, rfl⟩).tail ⟨_, .advance, rfl⟩).tail ⟨_, .advance, rfl⟩
  have hs : Reached {} ")\x7d`a".toList (leftBy (run (.load "first") failed)) :=
    hfailed.tail ⟨_, .load "first", rfl⟩
  exact ⟨_, hs, by decide +kernel, based_of_reached hs⟩

end Session

end EcmaTree
