import EcmaTree.Proofs.Grammar.Liberty.Binding
import EcmaTree.Proofs.Grammar.Liberty.Retarget

/-!
# What the list of an arrow function may hold

Where an arrow function may begin, a parenthesis is tried as parameters first. If that fails, the
list is read as expressions, and before an arrow it is converted and checked. Which of the two
readings the parameters come from can be told from them: the binding grammar takes no liberty, and
what was converted without one would have been parameters at the first try.
-/

namespace EcmaTree

open EcmaTree.Parser EcmaTree.Grammar EcmaTree.Reading EcmaTree.Trail ParseState Node

namespace Grammar

variable {options : ParseOptions} {s s₁ s₂ s₃ t : ParseState} {ts : List Token}

theorem readsBinding_of_descend {g : Goal} {r : g.Result} {opening : Place} (hg : g.IsBounded)
    (ho : AreOrdered ts) (hs : s.stream.IsPlaced) (h : descend options g s = .ok r t) :
    g.ReadsBinding ts opening s r t := by
  rw [descend_eq_answer hg (Nat.lt_succ_self _)] at h
  exact readsBinding_of_answer ho hs h

theorem opens_of_descend {g : Goal} {r : g.Result} (hg : g.IsBounded) (hs : s.stream.IsPlaced)
    (h : descend options g s = .ok r t) : g.Opens s r := by
  rw [descend_eq_answer hg (Nat.lt_succ_self _)] at h
  exact BareDefault.opens_of_answer hg hs h

theorem retargets_descend {opening : Place} {m : Nat} :
    Retargets (descend options) ts opening m :=
  retargets answers_descend fun _ _ _ _ h hg hs => opens_of_descend hg hs h

/-- Parameters that are read as such take no liberty. -/
theorem isBinding_of_arrowParameters {params : List Pattern} (ho : AreOrdered ts)
    (hs : s.stream.IsPlaced) (h : arrowParameters (descend options) s = .ok params t)
    (hseen : t.stream.seen <+: ts) : (ofList params).IsBinding ts s.place := by
  obtain ⟨s₁, opening, hparams, -, -⟩ := of_arrowParameters h
  obtain ⟨targets, htargets, rfl⟩ := of_parameters hparams
  have hs₁ := TokenStream.isPlaced_of_follows hs (follows_of_takes opening (by decide))
  have hbehind : s₁.ComesBehind s.place s.stream.token := by
    have hwide := isWide_of_kind hs opening.1 (by decide) (by decide)
    exact ⟨adjacent_of_advance (by simp [opening.1]) opening.2, hwide, fun _ => Nat.le_refl _⟩
  have hreads : (Goal.targets .parenR false false true).ReadsBinding ts s.place s₁ targets t :=
    readsBinding_of_descend nofun ho hs₁ htargets
  rw [← isBinding_ofHoleyList]
  exact hreads (.inl rfl) (fun _ => ⟨_, hbehind⟩) hseen

/-- Converted parameters that take no liberty are read at the first try. -/
theorem arrowParameters_of_isBinding {items : List Element} {pending : Pending}
    {patterns : List (Option Pattern)} (hs : s.Beside False s) (opening : Takes .parenL s s₁)
    (items_ok : descend options (.parenthesized true none) s₁ = .ok (items, pending) s₂)
    (closing : Takes .parenR s₂ s₃)
    (patterns_ok : patternsOfElements (items.map some) true = .ok patterns)
    (sameLine : s₃.endsStatement = false) (arrow : s₃.kind = .arrow)
    (hseen : s₃.stream.seen <+: ts) (hb : (ofHoleyList patterns).IsBinding ts s.place) :
    ∃ u, arrowParameters (descend options) s = .ok patterns.reduceOption u := by
  obtain ⟨s₁', opening', hs₁⟩ := hs.exists_of_takes (by decide) opening
  cases opening.2.symm.trans opening'.2
  have hlt := place_lt_of_takes hs.placed opening (by decide) (by decide)
  obtain ⟨u, hread, hend⟩ := retargets_descend.parenthesized hs₁ isBehind_none hlt
    (Nat.lt_succ_self _) items_ok closing hseen
    (converts_of_patternsOfElements patterns_ok).loosen hb
  have hparams : parameters (descend options) s₁ = .ok patterns.reduceOption u := by
    unfold parameters
    rw [bind_of_ok hread]
    rfl
  have hkind : u.kind = .arrow := hend.kind_eq.trans arrow
  have hline : u.endsStatement = false := hend.endsStatement_eq.trans sameLine
  refine ⟨u, ?_⟩
  simp [arrowParameters]
  exact ⟨s₁, opening, hparams, hline, hkind⟩

/-- An arrow function at `start` begins there. -/
theorem offset_of_isArrowAt {start : Place} {e : Expression} (h : isArrowAt start e = true) :
    e.span.start.offset = start.offset := by
  cases e with
  | arrow => exact eq_of_beq h
  | _ => cases h

/-- At a parenthesis where an arrow function may begin, one is tried. -/
theorem parenthesis_of_primary {d : Descent} {e : Expression} {pending after : Pending}
    (hk : s.kind = .parenL) (hmark : s.arrowStart = some s.place.offset)
    (hd : Answers options d) (h : d (.primary pending) s = .ok (e, after) t) :
    Parenthesis d true s e t := by
  rw [← hd.rule_eq (.primary pending) s trivial] at h
  cases of_primary h with
  | parenthesis kind parenthesis_ok =>
    rw [hmark, beq_self_eq_true] at parenthesis_ok
    exact parenthesis_ok
  | name kind => cases hk.symm.trans kind
  | this takes | array takes | object takes | function takes => cases hk.symm.trans takes.1
  | template kind | new kind => cases hk.symm.trans kind
  | literal literal_ok =>
    obtain ⟨value, hvalue, -, -⟩ := of_literal literal_ok
    simp [literalValue?, hk] at hvalue

theorem beside_of_mark (hs : s.stream.IsPlaced) (hmark : s.arrowStart = some s.place.offset) :
    s.Beside False s := by
  have hle : ∀ o, s.arrowStart = some o → o ≤ s.place.offset :=
    fun o ho => Nat.le_of_eq (Option.some.inj (ho.symm.trans hmark))
  exact ⟨rfl, hs, .refl _, hle, hle, Iff.rfl⟩

/-- Patterns that pass as bindings and take no liberty are bindings. -/
theorem isBinding_of_checkAll {strict : Bool} {names : Option (List String)} {place : Place}
    {patterns : List Pattern} (h : Pattern.checkAll strict true names patterns = .ok ())
    (hl : ∀ m ∈ (ofList patterns).reach, ¬m.2.TakesLiberty ts place) :
    (ofList patterns).IsBinding ts place := by
  rw [isBinding_ofList]
  intro p hp m hm
  have hpasses := passes_of_hasTarget (passes_of_checkAll h p hp) hm
  refine ⟨hl m (mem_reach.mpr ((hasTarget_ofList hp).trans hm)),
    not_isMemberPattern_of_passes hpasses, not_isSpreadPattern_of_passes hpasses⟩

/-- Where an arrow function begins with a parenthesis, either its parameters were read as such and
no target among them takes a liberty, or that has failed, and one does. -/
theorem parameters_of_parenthesis {text : List Char} {s₀ u : ParseState} {pending after : Pending}
    {e : Expression} (begins : Begins options text s₀) (hf : s₀.Follows s)
    (hk : s.kind = .parenL) (hmark : s.arrowStart = some s.place.offset)
    (h : descend options (.primary pending) s = .ok (e, after) u)
    (harrow : isArrowAt s.place e = true) :
    ∃ span params body, e = .arrow span (ofList params) body ∧
      ((∃ t, arrowParameters (descend options) s = .ok params t ∧
          ∀ m ∈ (ofList params).reach, ¬m.2.TakesLiberty u.stream.seen s.place) ∨
        ((∃ fault t, arrowParameters (descend options) s = .error (.fault fault) t) ∧
          ∃ m ∈ (ofList params).reach, m.2.TakesLiberty u.stream.seen s.place)) := by
  obtain ⟨stream, hread, rfl⟩ := begins
  have hplaced := TokenStream.isPlaced_of_read hread
  have hs : s.stream.IsPlaced := TokenStream.isPlaced_of_follows hplaced hf
  have hbeside : s.Beside False s := beside_of_mark hs hmark
  have hd : Answers options (descend options) := answers_descend
  have hordered : AreOrdered u.stream.seen :=
    TokenStream.areOrdered_of_follows hplaced (TokenStream.areOrdered_of_read hread)
      (hf.trans (follows_of_goal hd.traces h trivial))
  cases parenthesis_of_primary hk hmark hd h with
  | @arrow params s₁ _ _ allowed params_ok arrow_ok =>
    have hseen := TokenStream.seen_prefix_of_follows (follows_of_arrow hd.traces arrow_ok)
    have hb := isBinding_of_arrowParameters hordered hs params_ok hseen
    obtain ⟨s₂, body, -, -, rfl⟩ := of_arrow arrow_ok
    exact ⟨_, params, body, rfl, .inl ⟨s₁, params_ok, fun m hm => (hb m (mem_reach.mp hm)).1⟩⟩
  | list no_params list_ok =>
    obtain ⟨fault, t, hfails⟩ := no_params rfl
    cases list_ok with
    | @arrow s₁ items pending s₂ s₃ patterns _ _ allowed opening items_ok closing patterns_ok
        legal arrow_ok sameLine =>
      have hseen := TokenStream.seen_prefix_of_follows (follows_of_arrow hd.traces arrow_ok)
      obtain ⟨s₄, body, arrow, -, rfl⟩ := of_arrow arrow_ok
      refine ⟨_, patterns.reduceOption, body, rfl, .inr ⟨⟨fault, t, hfails⟩, ?_⟩⟩
      by_contra hnone
      have hb := isBinding_of_checkAll legal fun m hm hl => hnone ⟨m, hm, hl⟩
      obtain ⟨t', hparams⟩ := arrowParameters_of_isBinding hbeside opening items_ok closing
        patterns_ok sameLine arrow.1 hseen (isBinding_ofHoleyList.mpr hb)
      cases hfails.symm.trans hparams
    | @single s₁ items _ value _ opening items_ok closing no_rest one =>
      -- What stands in the parentheses begins behind them.
      have hs₁ := TokenStream.isPlaced_of_follows hs (follows_of_takes opening (by decide))
      have hlt := place_lt_of_takes hs opening (by decide) (by decide)
      obtain ⟨-, hstarts⟩ := hd.holds _ _ _ _ items_ok trivial hs₁ isBehind_none
      have hmem : .item e ∈ items :=
        BareDefault.item_mem_of_mem_expressionsOf (one ▸ List.mem_singleton_self e)
      have hstart : s₁.place.offset ≤ e.span.start.offset := hstarts _ hmem
      have heq := offset_of_isArrowAt harrow
      omega
    | sequence => cases harrow

theorem exists_of_run' {α : Type} {p : Parser α} {test : α → Bool}
    (h : (p.run' s).any test = true) : ∃ a u, p s = .ok a u ∧ test a = true := by
  unfold EStateM.run' EStateM.run at h
  cases hp : p s with
  | ok a u =>
    rw [hp] at h
    exact ⟨a, u, rfl, h⟩
  | error =>
    rw [hp] at h
    cases h

theorem begins_of_scan {text : List Char}
    (h : scan TokenStream.read (.ofText options text) = .ok () s) : Begins options text s := by
  simp only [scan] at h
  split at h
  · rename_i stream hread
    cases h
    exact ⟨stream, hread, rfl⟩
  · cases h

/-- A primary expression at the beginning of a text, where an arrow function may begin. -/
def leadingPrimary (d : Descent) : Parser (ParseState × Expression) := do
  scan TokenStream.read
  modify markArrow
  let s ← get
  return (s, (← d (.primary none)).1)

theorem of_leadingPrimary {text : List Char} {r : ParseState × Expression}
    (h : Grammar.run options leadingPrimary (.ofText options text) = .ok r t) :
    ∃ s₀ after, Begins options text s₀ ∧ r.1 = s₀.markArrow ∧
      descend options (.primary none) s₀.markArrow = .ok (r.2, after) t := by
  simp [Grammar.run, leadingPrimary] at h
  obtain ⟨s₀, hread, e, ⟨after, h⟩, rfl⟩ := h
  have begins := begins_of_scan hread
  have hf : s₀.Follows s₀.markArrow := by
    rw [ParseState.Follows, stream_markArrow]
  rw [answer_eq_descend (g := .primary none) begins hf trivial] at h
  exact ⟨s₀, after, begins, rfl, h⟩

/-- A parameter in parentheses of its own is no parameter at the first try. -/
theorem parameters_of_parenthesis_nested : ∃ s₀ s e after u,
    Begins {} "((a)) => 1".toList s₀ ∧ s₀.Follows s ∧ s.kind = .parenL ∧
    s.arrowStart = some s.place.offset ∧
    descend {} (.primary none) s = .ok (e, after) u ∧ isArrowAt s.place e = true ∧
    ∃ span params body, e = .arrow span (ofList params) body ∧
      ((∃ t, arrowParameters (descend {}) s = .ok params t ∧
          ∀ m ∈ (ofList params).reach, ¬m.2.TakesLiberty u.stream.seen s.place) ∨
        ((∃ fault t, arrowParameters (descend {}) s = .error (.fault fault) t) ∧
          ∃ m ∈ (ofList params).reach, m.2.TakesLiberty u.stream.seen s.place)) := by
  have hreading : ((Grammar.run {} leadingPrimary).run' (.ofText {} "((a)) => 1".toList)).any
      (fun r => r.1.kind == .parenL && r.1.arrowStart == some r.1.place.offset &&
        isArrowAt r.1.place r.2) = true := by
    decide +kernel
  obtain ⟨⟨s, e⟩, u, hrun, htest⟩ := exists_of_run' hreading
  obtain ⟨s₀, after, begins, rfl, hanswer⟩ := of_leadingPrimary hrun
  obtain ⟨⟨hk, hmark⟩, harrow⟩ : (s₀.markArrow.kind = .parenL ∧
      s₀.markArrow.arrowStart = some s₀.markArrow.place.offset) ∧
      isArrowAt s₀.markArrow.place e = true := by
    simpa using htest
  have hf : s₀.Follows s₀.markArrow := by
    rw [ParseState.Follows, stream_markArrow]
  exact ⟨s₀, _, e, after, u, begins, hf, hk, hmark, hanswer, harrow,
    parameters_of_parenthesis begins hf hk hmark hanswer harrow⟩

end Grammar

end EcmaTree
