import EcmaTree.Proofs.Grammar.Agreement
import EcmaTree.Proofs.Grammar.Agreement.Invariant

/-!
# Parsing terminates

The order in which goals are asked goes down: a rule asks a goal only where fewer tokens are
left than where it began itself, or, at the token where it began, of a lower rank. `descend`
answers goals by recursion along this order and knows no fuel; a rule that asked a goal out of
order would be told that its fuel has run out. This never happens, in rules that succeed, in
rules that fail and in attempts that are taken back, so `descend` gives the answers of the
grammar, and a parse is what it computes.
-/

namespace EcmaTree

namespace Goal

/-- What a rule may ask at the state `t` when it began with the goal `g` at the state `s`. -/
def Below (h : Goal) (t : ParseState) (g : Goal) (s : ParseState) : Prop :=
  t.unread < s.unread ∨ (t.unread = s.unread ∧ t.place = s.place ∧ h.rank < g.rank)

instance (h : Goal) (t : ParseState) (g : Goal) (s : ParseState) : Decidable (h.Below t g s) :=
  inferInstanceAs (Decidable (_ ∨ _))

theorem worth_lt_of_below {g h : Goal} {s t : ParseState} (below : h.Below t g s) :
    Grammar.worth h t < Grammar.worth g s := by
  unfold Grammar.worth
  have hle := rank_le h
  rcases below with hlt | ⟨heq, -, hrank⟩ <;> omega

theorem below_of_worth_lt {g h : Goal} {s t : ParseState} (hf : s.Follows t)
    (hlt : Grammar.worth h t < Grammar.worth g s) : h.Below t g s := by
  unfold Grammar.worth at hlt
  rcases Nat.lt_or_eq_of_le (ParseState.unread_le_of_follows hf) with hunread | hunread
  · exact .inl hunread
  · have hstream : t.stream = s.stream :=
      TokenStream.eq_of_follows hf (Nat.le_of_eq hunread.symm)
    refine .inr ⟨hunread, ?_, by omega⟩
    rw [ParseState.place, hstream]

/-- Every goal is like itself if all places belong to themselves, and then only equal answers
to it are related. -/
theorem alike_self {g : Goal} (hg : g.IsBounded) :
    ∃ R, Alike (.only fun _ => True) g g R ∧ ∀ r r', R r r' → r' = r := by
  let K : Correspondence := .only fun _ => True
  have hspan : ∀ s, K.Spans s s := fun s => Correspondence.spans_only.mpr ⟨rfl, trivial, trivial⟩
  have heq : ∀ s s', K.Spans s s' → s' = s := fun s s' h => (Correspondence.spans_only.mp h).1
  have hpending : ∀ pending, K.Pendings pending pending := by
    rintro (_ | place)
    · exact .none
    · exact .some ⟨rfl, trivial⟩
  have hnode : ∀ {c : Category} (n n' : Node c), K.Nodes n n' → n' = n := fun _ _ h => h.eq heq
  have hreading : ∀ {α : Type} {R : α → α → Prop}, (∀ a a', R a a' → a' = a) →
      ∀ r r', K.Readings R r r' → r' = r := by
    rintro α R hR ⟨a, pending⟩ ⟨a', pending'⟩ ⟨ha, hp⟩
    cases hR _ _ ha
    cases eq_of_rel (fun _ _ h => h.1) hp
    rfl
  cases g with
  | statement => exact ⟨_, .statement, hnode⟩
  | statements => exact ⟨_, .statements, fun _ _ => eq_of_forall₂ hnode⟩
  | declarators => exact ⟨_, .declarators, fun _ _ => eq_of_forall₂ hnode⟩
  | assignment => exact ⟨_, .assignment (hpending _), hreading hnode⟩
  | commaOperands =>
    exact ⟨_, .commaOperands (hpending _), hreading fun _ _ => eq_of_forall₂ hnode⟩
  | unary => exact ⟨_, .unary (hpending _), hreading hnode⟩
  | operators => exact ⟨_, .operators (Node.alike_refl hspan _) ⟨rfl, trivial⟩, hnode⟩
  | primary => exact ⟨_, .primary (hpending _), hreading hnode⟩
  | suffixes => exact ⟨_, .suffixes (Node.alike_refl hspan _) ⟨rfl, trivial⟩, hnode⟩
  | elements =>
    refine ⟨_, .elements hg (hpending _), hreading fun _ _ => ?_⟩
    exact eq_of_forall₂ fun _ _ => eq_of_rel hnode
  | parenthesized =>
    exact ⟨_, .parenthesized (hpending _), hreading fun _ _ => eq_of_forall₂ hnode⟩
  | members => exact ⟨_, .members (hpending _), hreading fun _ _ => eq_of_forall₂ hnode⟩
  | chunks =>
    refine ⟨_, .chunks, ?_⟩
    rintro ⟨quasis, expressions⟩ ⟨quasis', expressions'⟩ ⟨hq, he⟩
    cases eq_of_forall₂ (fun _ _ h => TemplateElement.Alike.eq heq h) hq
    cases eq_of_forall₂ hnode he
    rfl
  | targets => exact ⟨_, .targets hg, fun _ _ => eq_of_forall₂ fun _ _ => eq_of_rel hnode⟩
  | patternMembers => exact ⟨_, .patternMembers, fun _ _ => eq_of_forall₂ hnode⟩

end Goal

namespace Grammar

open EcmaTree.Parser EcmaTree.Agreement EcmaTree.Trail

variable {options : ParseOptions} {g : Goal} {s : ParseState}

/-- Steps lead from a stream to streams that follow it. -/
def following (s : TokenStream) : StreamInvariant where
  Holds t := s.Follows t
  Left _ := True
  At _ := True
  token _ := trivial
  last _ _ _ := ⟨trivial, trivial⟩
  step hf h := hf.tail h
  fail _ _ := ⟨trivial, trivial⟩
  left _ := trivial

/-- An end in the same state, with the same answer or the same fault. -/
theorem eq_of_sameEnd {α : Type} {P : Place → Prop} {Alike Failed : ParseState → ParseState → Prop}
    {R : α → α → Prop} {x y : EStateM.Result Stop ParseState α}
    (ha : ∀ t t', Alike t t' → t' = t) (hf : ∀ t t', Failed t t' → t' = t)
    (hR : ∀ r r', R r r' → r' = r) (h : SameEnd (.only P) Alike Failed R x y) : y = x := by
  cases h with
  | ok value alike => rw [hR _ _ value, ha _ _ alike]
  | fault errors failed => rw [(Correspondence.errors_only.mp errors).1, hf _ _ failed]

/-- A rule asks only goals below its own: it does not matter how others would be answered. -/
theorem rule_eq_answer {d : Descent} {fuel : Nat} (hg : g.IsBounded) (hfuel : worth g s < fuel + 1)
    (hd : ∀ h t, h.IsBounded → h.Below t g s → d h t = answer options fuel h t) :
    rule options d g s = answer options (fuel + 1) g s := by
  obtain ⟨R, hself, hR⟩ := Goal.alike_self hg
  have hagrees : Agrees (following s.stream).likeness R (rule options (answer options fuel) g)
      (rule options d g) s := by
    apply agrees_rule (.same _) (rereads_of_not id)
    · intro g s r u hok hbounded
      exact traces_of_answer hbounded hok
    · exact shortens_of_answer fuel
    · rintro h h' Q _ hh hlt t ⟨rfl, hf⟩
      have hlt' : worth h' t < worth g s := by
        unfold worth
        rw [hh.rank_eq]
        exact hlt
      rw [hd h' t hh.isBounded (Goal.below_of_worth_lt hf hlt')]
      exact agrees_answer id hh (by omega) (by omega) t ⟨rfl, hf⟩
    · exact hself
  exact eq_of_sameEnd (fun _ _ h => h.1) (fun _ _ h => h.1) hR ((hagrees s ⟨rfl, .refl⟩).sameEnd id)

/-- With enough fuel the answer to a goal is a value or a fault. -/
theorem answer_ne_exhausted {fuel : Nat} {t : ParseState} (hg : g.IsBounded)
    (h : worth g s < fuel) : answer options fuel g s ≠ .error .exhausted t := by
  obtain ⟨R, hself, -⟩ := Goal.alike_self hg
  have hagrees : Agrees (following s.stream).likeness R (answer options fuel g)
      (answer options fuel g) s :=
    agrees_answer id hself h h
  have hend := (hagrees s ⟨rfl, .refl⟩).sameEnd id
  intro heq
  rw [heq] at hend
  cases hend

/-- The answer to a goal, in which every rule asks only goals below its own. -/
def descend (options : ParseOptions) (g : Goal) (s : ParseState) :
    EStateM.Result Stop ParseState g.Result :=
  rule options
    (fun h t => if _ : h.Below t g s then descend options h t else .error .exhausted t) g s
termination_by (s.unread, g.rank)
decreasing_by
  rename_i below
  rcases below with hlt | ⟨heq, -, hrank⟩
  · exact .left _ _ hlt
  · rw [heq]
    exact .right _ hrank

/-- The answers by descent are those of the grammar with any fuel that is enough. -/
theorem descend_eq_answer {fuel : Nat} (hg : g.IsBounded) (h : worth g s < fuel) :
    descend options g s = answer options fuel g s := by
  induction fuel generalizing g s with
  | zero => exact absurd h (Nat.not_lt_zero _)
  | succ fuel ih =>
    unfold descend
    apply rule_eq_answer hg h
    intro h' t hbounded below
    have hlt := Goal.worth_lt_of_below below
    rw [dif_pos below]
    exact ih hbounded (by omega)

/-- A rule takes its answer from goals below its own alone. -/
theorem rule_eq_descend {d : Descent} (hg : g.IsBounded)
    (hd : ∀ h t, h.IsBounded → h.Below t g s → d h t = descend options h t) :
    rule options d g s = descend options g s := by
  rw [descend_eq_answer hg (Nat.lt_succ_self _)]
  apply rule_eq_answer hg (Nat.lt_succ_self _)
  intro h t hbounded below
  rw [hd h t hbounded below]
  exact descend_eq_answer hbounded (Goal.worth_lt_of_below below)

/-- A property of answers that every rule hands on holds of the answers by descent. -/
theorem descend_induction {I : (g : Goal) → ParseState → g.Result → ParseState → Prop}
    (hrule : ∀ d : Descent, (∀ g s r u, d g s = .ok r u → I g s r u) →
      ∀ g s r u, rule options d g s = .ok r u → I g s r u) :
    ∀ g s r u, descend options g s = .ok r u → I g s r u := by
  intro g s r u h
  induction hn : worth g s using Nat.strongRecOn generalizing g s r u with
  | ind n ih =>
    rw [descend] at h
    refine hrule _ (fun g' t r' u' hrun => ?_) g s r u h
    split at hrun
    · rename_i below
      exact ih _ (hn ▸ Goal.worth_lt_of_below below) g' t r' u' hrun rfl
    · cases hrun

/-- The fuel for a text is enough wherever its tokens have led. -/
theorem answer_eq_descend {text : List Char} {s₀ : ParseState} (begins : Begins options text s₀)
    (hf : s₀.Follows s) (hg : g.IsBounded) :
    answer options (depthBound (.ofText options text)) g s = descend options g s := by
  have hlt : 8 * s₀.unread + 4 < depthBound (.ofText options text) := worth_lt_depthBound begins
  have hunread := ParseState.unread_le_of_follows hf
  have hrank := g.rank_le
  have hworth : worth g s = 8 * s.unread + g.rank := rfl
  exact (descend_eq_answer hg (by omega)).symm

/-- A parse reads the statements of its text by descent. -/
theorem parse_eq_descend {text : List Char} :
    parse options text = parseBy options (descend options) text := by
  rw [parse_eq_parseBy]
  apply parseBy_congr
  intro s begins
  rw [descend_eq_answer (g := .statements true .eof) trivial (worth_lt_depthBound begins)]

theorem result_parse (options : ParseOptions) (text : List Char) :
    (∃ file, (parse options text).result = .ok file) ∨
      ∃ e, (parse options text).result = .error (.fault e) := by
  have hends := ends_parse options text
  generalize parse options text = parsed at hends
  cases hends with
  | unread => exact .inr ⟨_, rfl⟩
  | stopped begins ha =>
    rename_i stop
    cases stop with
    | fault e => exact .inr ⟨e, rfl⟩
    | exhausted => exact absurd ha (answer_ne_exhausted trivial (worth_lt_depthBound begins))
  | accepted => exact .inl ⟨_, rfl⟩

/-- Every parse ends, with a file or with a fault. It is computed by a descent along an order
in which no goal has infinitely many below it. In this descent no rule asks a goal that is not
below its own, and a rule that began with `g` at `s` takes its answer from goals below `g` at
`s` alone, whatever other goals would be answered. The blanks and comments before a token take
at most one step for each character. -/
theorem parse_terminates (options : ParseOptions) (text : List Char) :
    parse options text = parseBy options (descend options) text ∧
      ((∃ file, (parse options text).result = .ok file) ∨
        ∃ e, (parse options text).result = .error (.fault e)) ∧
      (∀ (g : Goal) (s t : ParseState), g.IsBounded →
        descend options g s ≠ .error .exhausted t) ∧
      (∀ (g : Goal) (s : ParseState) (d : Descent), g.IsBounded →
        (∀ h t, h.IsBounded → h.Below t g s → d h t = descend options h t) →
        rule options d g s = descend options g s) ∧
      ∀ (s : TokenStream) (fuel : Nat), s.cursor.rest.length ≤ fuel →
        TokenStream.skipTrivia fuel s = TokenStream.skipTrivia s.cursor.rest.length s := by
  refine ⟨parse_eq_descend, result_parse options text, ?_, ?_, ?_⟩
  · intro g s t hg
    rw [descend_eq_answer hg (Nat.lt_succ_self _)]
    exact answer_ne_exhausted hg (Nat.lt_succ_self _)
  · intro g s d hg hd
    exact rule_eq_descend hg hd
  · intro s fuel hle
    exact TokenStream.skipTrivia_eq hle (Nat.le_refl _)

end Grammar

end EcmaTree
