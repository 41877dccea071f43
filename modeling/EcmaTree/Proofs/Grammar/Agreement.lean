import EcmaTree.Proofs.Grammar.Agreement.Statement

/-!
# Fuel that is enough

A goal needs no more fuel than it is worth: the tokens that are left, weighed, and its rank.
With enough fuel on both sides the answers to like goals from like states agree, so no answer
runs out of fuel. The fuel of a parse is enough for the statements of every text.
-/

namespace EcmaTree

namespace Grammar

open EcmaTree.Parser EcmaTree.Agreement EcmaTree.Trail

variable {options options' : ParseOptions} {L : Likeness} {g g' : Goal}
  {R : g.Result → g'.Result → Prop} {s : ParseState}

/-- What a goal is worth. -/
def worth (g : Goal) (s : ParseState) : Nat :=
  8 * s.unread + g.rank

/-- The step of the induction: one case for each kind of goal. The options on the right side may
allow more, and an attempt that fails on the left side alone has to be made good. -/
theorem agrees_rule {d d' : Descent}
    (ho : Loosened L.Lenient (!options.allowReturnOutsideFunction)
      (!options'.allowReturnOutsideFunction)) (hretry : Rereads L d d' s)
    (ht : ∀ g s r u, d g s = .ok r u → g.IsBounded → g.Traces s u)
    (hs : ∀ g s r u, d g s = .ok r u → g.Shortens s u)
    (hd : ∀ {h h' : Goal} {Q : h.Result → h'.Result → Prop} {t : ParseState},
      Goal.Alike L.toCorrespondence h h' Q → worth h t < worth g s → Agrees L Q (d h) (d' h') t)
    (hg : Goal.Alike L.toCorrespondence g g' R) :
    Agrees L R (rule options d g) (rule options' d' g') s := by
  cases hg with
  | statement => exact agrees_statement ht hd (Nat.lt_succ_self _) ho
  | statements => exact agrees_statements hd (fun _ => hs .statement _ _ _) (Nat.le_refl _)
  | declarators => exact agrees_declarators ht hd (Nat.le_refl _)
  | assignment hp => exact agrees_assignment ht hd hp (Nat.lt_succ_self _)
  | commaOperands hp => exact agrees_commaOperands ht hd hp (Nat.le_refl _)
  | unary hp => exact agrees_unary ht hd hp (Nat.lt_succ_self _)
  | operators hleft hstart => exact agrees_operators ht hd hleft hstart (Nat.le_refl _)
  | primary hp => exact agrees_primary ht hd hp (Nat.le_refl _) hretry
  | suffixes hbase hstart => exact agrees_suffixes ht hd hbase hstart (Nat.le_refl _)
  | elements bounded hp => exact agrees_elements ht hd bounded hp (Nat.le_refl _)
  | parenthesized hp => exact agrees_parenthesized ht hd hp (Nat.le_refl _)
  | members hp => exact agrees_members ht hd hp (Nat.le_refl _)
  | chunks => exact agrees_chunks ht hd (Nat.le_refl _)
  | targets bounded => exact agrees_targets ht hd bounded (Nat.le_refl _)
  | patternMembers => exact agrees_patternMembers ht hd (Nat.le_refl _)

/-- Two amounts of fuel that are both enough for like goals lead to ends that belong together. -/
theorem agrees_answer {fuel fuel' : Nat} (hn : ¬L.Lenient)
    (hg : Goal.Alike L.toCorrespondence g g' R) (h : worth g s < fuel) (h' : worth g s < fuel') :
    Agrees L R (answer options fuel g) (answer options fuel' g') s := by
  induction fuel generalizing fuel' g g' R s with
  | zero => exact absurd h (Nat.not_lt_zero _)
  | succ fuel ih =>
    obtain _ | fuel' := fuel'
    · exact absurd h' (Nat.not_lt_zero _)
    apply agrees_rule (.same _) (rereads_of_not hn)
    · intro g s r u hok hbounded
      exact traces_of_answer hbounded hok
    · exact shortens_of_answer fuel
    · intro h h' Q t hh hlt
      exact ih hh (by omega) (by omega)
    · exact hg

/-- The fuel a parse starts with is enough for the statements of the text. -/
theorem worth_lt_depthBound {text : List Char} (h : Begins options text s) :
    worth (.statements true .eof) s < depthBound (.ofText options text) := by
  obtain ⟨stream, hr, rfl⟩ := h
  have hpending : stream.pending ≤ 2 * text.length := TokenStream.pending_first hr
  have hunread := stream.unread_le_pending
  change 8 * stream.unread + 4 < 8 * (2 * text.length + 4)
  omega

/-- The span of a program that has been read up to its last token. -/
def fileSpan (s : ParseState) : Span :=
  Span.closing ⟨0, 1, 0⟩ s.stream.token.span.stop

/-- How the parse of a text by a descent ends: at the first token, within the statements, or
with a file. -/
inductive Ends (options : ParseOptions) (d : Descent) (text : List Char) : Parsed → Prop
  | unread {e : ParseError} {stream : TokenStream}
    (read : TokenStream.read (.ofText text) = .error e stream) :
    Ends options d text
      ⟨.error (.fault e), { ParseState.ofText options text with stream := stream }⟩
  | stopped {s t : ParseState} {stop : Stop} (begins : Begins options text s)
    (answer : d (.statements true .eof) s = .error stop t) : Ends options d text ⟨.error stop, t⟩
  | accepted {s t : ParseState} {body : List Statement} (begins : Begins options text s)
    (answer : d (.statements true .eof) s = .ok body t) :
    Ends options d text
      ⟨.ok ⟨fileSpan t, ⟨fileSpan t, options.sourceType, .ofList body⟩,
        t.stream.comments.toList⟩, handOut t⟩

/-- The outcome of reading a program with a descent for its goals. -/
def parseBy (options : ParseOptions) (d : Descent) (text : List Char) : Parsed :=
  match file options d (.ofText options text) with
  | .ok file state => ⟨.ok file, state⟩
  | .error stop state => ⟨.error stop, state⟩

theorem parse_eq_parseBy {text : List Char} :
    parse options text =
      parseBy options (answer options (depthBound (.ofText options text))) text :=
  rfl

section Ends

variable {d d' : Descent} {text : List Char} {t : ParseState}

/-- A program is its first token, its statements, and what is made of them. -/
theorem file_eq (options : ParseOptions) (d : Descent) (text : List Char) :
    ∃ close : List Statement → Parser File,
      file options d (.ofText options text) =
        (scan TokenStream.read >>= fun _ => d (.statements true .eof) >>= close)
          (.ofText options text) ∧
      ∀ body t, close body t = .ok ⟨fileSpan t, ⟨fileSpan t, options.sourceType, .ofList body⟩,
        t.stream.comments.toList⟩ (handOut t) :=
  ⟨_, rfl, fun _ _ => rfl⟩

theorem file_of_begins (hs : Begins options text s) :
    ∃ close : List Statement → Parser File,
      file options d (.ofText options text) = (d (.statements true .eof) >>= close) s ∧
      ∀ body t, close body t = .ok ⟨fileSpan t, ⟨fileSpan t, options.sourceType, .ofList body⟩,
        t.stream.comments.toList⟩ (handOut t) := by
  obtain ⟨stream, hr, rfl⟩ := hs
  obtain ⟨close, hfile, hclose⟩ := file_eq options d text
  rw [bind_of_ok (scan_of_ok hr)] at hfile
  exact ⟨close, hfile, hclose⟩

theorem parseBy_of_unread {e : ParseError} {stream : TokenStream}
    (hr : TokenStream.read (.ofText text) = .error e stream) :
    parseBy options d text =
      ⟨.error (.fault e), { ParseState.ofText options text with stream := stream }⟩ := by
  obtain ⟨close, hfile, -⟩ := file_eq options d text
  rw [bind_of_error (scan_of_error hr)] at hfile
  unfold parseBy
  rw [hfile]

theorem parseBy_of_stopped {stop : Stop} (hs : Begins options text s)
    (ha : d (.statements true .eof) s = .error stop t) :
    parseBy options d text = ⟨.error stop, t⟩ := by
  obtain ⟨close, hfile, -⟩ := file_of_begins hs
  unfold parseBy
  rw [hfile, bind_of_error ha]

theorem parseBy_of_accepted {body : List Statement} (hs : Begins options text s)
    (ha : d (.statements true .eof) s = .ok body t) :
    parseBy options d text =
      ⟨.ok ⟨fileSpan t, ⟨fileSpan t, options.sourceType, .ofList body⟩,
        t.stream.comments.toList⟩, handOut t⟩ := by
  obtain ⟨close, hfile, hclose⟩ := file_of_begins hs
  unfold parseBy
  rw [hfile, bind_of_ok ha, hclose]

theorem begins_or_unread (options : ParseOptions) (text : List Char) :
    (∃ s, Begins options text s) ∨
      ∃ e stream, TokenStream.read (.ofText text) = .error e stream := by
  cases hr : TokenStream.read (.ofText text) with
  | ok u stream => exact .inl ⟨_, stream, hr, rfl⟩
  | error e stream => exact .inr ⟨e, stream, rfl⟩

/-- What a descent would answer elsewhere than at the first token does not matter. -/
theorem parseBy_congr
    (h : ∀ s, Begins options text s → d (.statements true .eof) s = d' (.statements true .eof) s) :
    parseBy options d text = parseBy options d' text := by
  rcases begins_or_unread options text with ⟨s, hs⟩ | ⟨e, stream, hr⟩
  · cases ha : d (.statements true .eof) s with
    | ok body t => rw [parseBy_of_accepted hs ha, parseBy_of_accepted hs (h s hs ▸ ha)]
    | error stop t => rw [parseBy_of_stopped hs ha, parseBy_of_stopped hs (h s hs ▸ ha)]
  · rw [parseBy_of_unread hr, parseBy_of_unread hr]

theorem ends_parseBy (options : ParseOptions) (d : Descent) (text : List Char) :
    Ends options d text (parseBy options d text) := by
  rcases begins_or_unread options text with ⟨s, hs⟩ | ⟨e, stream, hr⟩
  · cases ha : d (.statements true .eof) s with
    | ok body t =>
      rw [parseBy_of_accepted hs ha]
      exact .accepted hs ha
    | error stop t =>
      rw [parseBy_of_stopped hs ha]
      exact .stopped hs ha
  · rw [parseBy_of_unread hr]
    exact .unread hr

end Ends

theorem ends_parse (options : ParseOptions) (text : List Char) :
    Ends options (answer options (depthBound (.ofText options text))) text
      (parse options text) := by
  rw [parse_eq_parseBy]
  exact ends_parseBy options _ text

end Grammar

end EcmaTree
