import EcmaTree.Proofs.Grammar.Agreement
import EcmaTree.Proofs.Token.Abreast

/-!
# Texts with the same tokens

The grammar sees a text through its tokens and through line breaks between them. Where tokens
stand it hands on to nodes and faults, and otherwise only asks which of two tokens starts first.
So two texts whose trails show the same tokens are parsed side by side: both are accepted, with
files that differ in places and comments only, or both are refused for the same fault.
-/

namespace EcmaTree

namespace Grammar

open EcmaTree.Parser EcmaTree.Agreement TokenStream

variable {options : ParseOptions} {p : TokenStream × TokenStream}

/-- Streams that have come from `p` to corresponding tokens. -/
abbrev FromPair (p : TokenStream × TokenStream) (s s' : TokenStream) : Prop :=
  Relation.ReflTransGen StepBoth p (s, s')

/-- Tokens correspond to which streams that are abreast come together. -/
def tokenwise (hp : Abreast p) : Correspondence where
  Start q q' := ∃ s s', FromPair p s s' ∧ s.token.span.start = q ∧ s'.token.span.start = q'
  Stop _ _ := True
  stop_of_start _ := trivial
  lt_iff := by
    rintro _ _ _ _ ⟨s, s', hs, rfl, rfl⟩ ⟨t, t', ht, rfl, rfl⟩
    exact start_lt_iff_of_steps hp hs ht
  stop_closing _ _ := trivial

variable {s s' t t' : TokenStream} {hp : Abreast p}

theorem spans_tokenwise (h : FromPair p s s') :
    (tokenwise hp).Spans s.token.span s'.token.span :=
  ⟨⟨s, s', h, rfl, rfl⟩, trivial⟩

theorem last_of_fromPair (hfirst : p.1.last = none ∧ p.2.last = none) (h : FromPair p s s') :
    Option.Rel (tokenwise hp).Spans s.last s'.last := by
  cases h with
  | refl =>
    rw [hfirst.1, hfirst.2]
    exact .none
  | tail hinit hstep =>
    rw [last_of_advance hstep.1.2, last_of_advance hstep.2.2]
    exact .some (spans_tokenwise hinit)

/-- States at corresponding tokens that agree on what else the grammar can ask. -/
structure StateAlike (hp : Abreast p) (s s' : ParseState) : Prop where
  steps : FromPair p s.stream s'.stream
  scope_eq : s'.scope = s.scope
  canBeArrow_eq : ∀ {q q'}, (tokenwise hp).Start q q' →
    (s'.arrowStart == some q'.offset) = (s.arrowStart == some q.offset)

theorem StateAlike.ahead {s s' : ParseState} (h : StateAlike hp s s') :
    SameAhead s.stream s'.stream :=
  (abreast_of_steps hp h.steps).1.ahead

theorem StateAlike.advance {s s' : ParseState} (h : StateAlike hp s s') (hk : s.kind ≠ .eof) :
    SameEnd (tokenwise hp) (StateAlike hp) (fun _ _ => True) Eq (Parser.advance s)
      (Parser.advance s') := by
  obtain ⟨t, t', ht, ht'⟩ := h.ahead.exists_steps hk
  have hok : Parser.advance s = .ok () { s with stream := t } :=
    advance_eq_ok.mpr ⟨t, ht.2, rfl⟩
  have hok' : Parser.advance s' = .ok () { s' with stream := t' } :=
    advance_eq_ok.mpr ⟨t', ht'.2, rfl⟩
  rw [hok, hok']
  exact .ok rfl ⟨h.steps.tail ⟨ht, ht'⟩, h.scope_eq, h.canBeArrow_eq⟩

/-- Parses at corresponding tokens. -/
def abreast (hp : Abreast p) (hfirst : p.1.last = none ∧ p.2.last = none) : Likeness where
  toCorrespondence := tokenwise hp
  Lenient := False
  Alike := StateAlike hp
  Failed _ _ := True
  token h := by
    have hsight := h.ahead.sight_eq
    refine ⟨congrArg Prod.fst hsight, congrArg (fun sight => sight.2.1) hsight, h.ahead.text_eq, ?_⟩
    exact (spans_tokenwise h.steps).start
  last h := last_of_fromPair hfirst h.steps
  afterLineBreak_eq h := congrArg (fun sight => sight.2.2.2) h.ahead.sight_eq
  scope h := h.scope_eq ▸ .refl _
  canBeArrow_eq h := h.canBeArrow_eq (spans_tokenwise h.steps).start
  rescope h hσ := ⟨h.steps, hσ.eq_of_not id, h.canBeArrow_eq⟩
  mark h := by
    refine ⟨h.steps, h.scope_eq, ?_⟩
    intro q q' hq
    have hoffset := (tokenwise hp).offset_eq_iff (spans_tokenwise h.steps).start hq
    rw [Bool.eq_iff_iff, beq_iff_eq, beq_iff_eq, Option.some.injEq, Option.some.injEq]
    exact hoffset
  advance h hk := h.advance hk
  failed _ := trivial
  failed_popLabel _ := trivial
  failed_returnTo _ _ := trivial

/-- Two texts with the same tokens ahead at their first tokens are abreast there. -/
theorem abreast_of_begins {text text' : List Char} {s s' : ParseState}
    (h : Begins options text s) (h' : Begins options text' s')
    (ahead : SameAhead s.stream s'.stream) :
    Abreast (s.stream, s'.stream) ∧ s.stream.last = none ∧ s'.stream.last = none := by
  obtain ⟨stream, hr, rfl⟩ := h
  obtain ⟨stream', hr', rfl⟩ := h'
  obtain ⟨-, -, -, hlast, -⟩ := places_of_read hr
  obtain ⟨-, -, -, hlast', -⟩ := places_of_read hr'
  exact ⟨⟨isRead_of_read hr, isRead_of_read hr', ahead⟩, hlast, hlast'⟩

theorem stateAlike_of_begins {text text' : List Char} {s s' : ParseState}
    {hp : Abreast (s.stream, s'.stream)} (h : Begins options text s)
    (h' : Begins options text' s') : StateAlike hp s s' := by
  obtain ⟨stream, -, rfl⟩ := h
  obtain ⟨stream', -, rfl⟩ := h'
  exact ⟨.refl, rfl, fun _ => rfl⟩

/-- The statements of two texts that show the same tokens come to ends that belong together. -/
theorem sameEnd_statements_of_begins {text text' : List Char} {s s' : ParseState}
    (h : Begins options text s) (h' : Begins options text' s')
    (hp : Abreast (s.stream, s'.stream)) :
    SameEnd (tokenwise hp) (StateAlike hp) (fun _ _ => True)
      (List.Forall₂ (tokenwise hp).Nodes)
      (answer options (depthBound (.ofText options text)) (.statements true .eof) s)
      (answer options (depthBound (.ofText options text')) (.statements true .eof) s') := by
  obtain ⟨-, hfirst⟩ := abreast_of_begins h h' hp.ahead
  have hgoal : Goal.Alike (abreast hp hfirst).toCorrespondence (.statements true .eof)
      (.statements true .eof) (List.Forall₂ (tokenwise hp).Nodes) := .statements
  have hunread : s'.unread = s.unread := hp.ahead.unread_eq
  have hworth := worth_lt_depthBound h
  have hworth' := worth_lt_depthBound h'
  unfold worth at hworth'
  rw [hunread] at hworth'
  exact (agrees_answer id hgoal hworth hworth' s' (stateAlike_of_begins h h')).sameEnd id

/-- Texts whose trails show the same tokens, from the first to the end of input, are parsed
alike: into files that are equal apart from places and comments, or both with the same fault. -/
theorem parse_of_sights_eq {text text' : List Char} (h : (scan text).error = none)
    (h' : (scan text').error = none)
    (hsights : (scan text').states.map sight = (scan text).states.map sight) :
    (∃ f f', (parse options text).result = .ok f ∧ (parse options text').result = .ok f' ∧
      f'.erase = f.erase) ∨
    ∃ e e', (parse options text).result = .error (.fault e) ∧
      (parse options text').result = .error (.fault e') ∧ e'.fault = e.fault := by
  obtain ⟨s, s', hr, hr', ahead⟩ := sameAhead_of_scan h h' hsights
  have begins : Begins options text { ParseState.ofText options text with stream := s } :=
    ⟨s, hr, rfl⟩
  have begins' : Begins options text' { ParseState.ofText options text' with stream := s' } :=
    ⟨s', hr', rfl⟩
  have hend := sameEnd_statements_of_begins begins begins'
    (abreast_of_begins begins begins' ahead).1
  rw [parse_eq_parseBy, parse_eq_parseBy]
  generalize hx : answer options _ _ { ParseState.ofText options text with stream := s } = x at hend
  generalize hy : answer options _ _ { ParseState.ofText options text' with stream := s' } = y
    at hend
  rcases hend with ⟨value, -⟩ | ⟨errors, -⟩
  · left
    rw [parseBy_of_accepted begins hx, parseBy_of_accepted begins' hy]
    refine ⟨_, _, rfl, rfl, ?_⟩
    have hbody := (Node.alike_ofList value).erase_eq
    unfold File.erase Program.erase
    rw [hbody]
  · right
    rw [parseBy_of_stopped begins hx, parseBy_of_stopped begins' hy]
    exact ⟨_, _, rfl, rfl, errors.fault_eq⟩

/-- A comment in the parameters of an arrow function and a blank less change nothing. -/
theorem parse_of_sights_eq_comment :
    (scan "(a) => a".toList).error = none ∧ (scan "(/* b */a) =>a".toList).error = none ∧
      (scan "(/* b */a) =>a".toList).states.map sight =
        (scan "(a) => a".toList).states.map sight ∧
      ((∃ f f', (parse {} "(a) => a".toList).result = .ok f ∧
        (parse {} "(/* b */a) =>a".toList).result = .ok f' ∧ f'.erase = f.erase) ∨
      ∃ e e', (parse {} "(a) => a".toList).result = .error (.fault e) ∧
        (parse {} "(/* b */a) =>a".toList).result = .error (.fault e') ∧ e'.fault = e.fault) := by
  have h : (scan "(a) => a".toList).error = none := by decide +kernel
  have h' : (scan "(/* b */a) =>a".toList).error = none := by decide +kernel
  have hsights : (scan "(/* b */a) =>a".toList).states.map sight =
      (scan "(a) => a".toList).states.map sight := rfl
  exact ⟨h, h', hsights, parse_of_sights_eq h h' hsights⟩

end Grammar

end EcmaTree
