import EcmaTree.Proofs.Grammar.Phrase.Statement

/-!
# What a statement may stand in

A block, an `if`, a `try`, a loop or a label around a statement leaves the words of the statement to
the rule for statements: what comes before them is read first, and what comes behind them when the
statement has been read. The body of a loop is read in the scope of the label of loops, and the
statement behind a label in the scope of that label.
-/

namespace EcmaTree

open EcmaTree.Parser EcmaTree.Grammar EcmaTree.Reading

/-- What a statement may stand in. Where a head has an expression it is `this`, and where it has a
target it is a name. -/
inductive Wrapper where
  | block
  | ifBody
  | tryBlock
  | whileBody
  | forBody
  /-- A loop over the keys or over the values. -/
  | forEachBody (keys : Bool)
  | label (name : String)
deriving DecidableEq, Repr

namespace Wrapper

/-- The word before what a loop goes over. -/
def link (keys : Bool) : Word :=
  if keys then .keyword .in else .name "of"

/-- The words before the statement. -/
def opening : Wrapper → List Word
  | block => [.braceL]
  | ifBody => [.keyword .if, .parenL, .keyword .this, .parenR]
  | tryBlock => [.keyword .try, .braceL]
  | whileBody => [.keyword .while, .parenL, .keyword .this, .parenR]
  | forBody => [.keyword .for, .parenL, .semi, .semi, .parenR]
  | forEachBody keys =>
    [.keyword .for, .parenL, .name "item", link keys, .keyword .this, .parenR]
  | label name => [.name name, .colon]

/-- The words behind the statement. -/
def closing : Wrapper → List Word
  | block => [.braceR]
  | tryBlock => [.braceR, .keyword .finally, .braceL, .braceR]
  | _ => []

def isLoop : Wrapper → Bool
  | whileBody | forBody | forEachBody _ => true
  | _ => false

def name? : Wrapper → Option String
  | label name => some name
  | _ => none

/-- The label with which the statement is read, if `path` is what it stands in further inside. -/
def label? (path : List Wrapper) : Wrapper → Option Label
  | block | ifBody | tryBlock => none
  | whileBody | forBody | forEachBody _ => some ⟨none, true⟩
  | label name => some ⟨some name, path.head?.any isLoop⟩

end Wrapper

namespace Grammar

/-- Reads a statement in the scope of a label, if there is one. -/
def within : Option Label → Parser Statement → Parser Statement
  | none, p => p
  | some label, p => withLabel label p

/-- The scope of a statement that is read in the scope of a label. -/
def inside (label : Option Label) (σ : Scope) : Scope :=
  { σ with labels := label.toList ++ σ.labels }

section Within

variable {label : Option Label} {p : Parser Statement} {σ : Scope} {words : List Word}
  {s : ParseState}

/-- What is read in the scope of a label is read with it among the labels, and takes it away. -/
theorem exists_within (label : Option Label) (p : Parser Statement) (hs : s.Before σ words) :
    ∃ u : ParseState, u.stream = s.stream ∧ u.Before (inside label σ) words ∧
      (∀ e t, p u = .error e t → ∃ t', within label p s = .error e t') ∧
      ∀ st t left, p u = .ok st t → t.Before (inside label σ) left →
        ∃ t', within label p s = .ok st t' ∧ t'.Before σ left := by
  cases label with
  | none =>
    exact ⟨s, rfl, hs, fun e t h => ⟨t, h⟩, fun st t left h ht => ⟨t, h, ht⟩⟩
  | some label =>
    refine ⟨s.pushLabel label, rfl, ⟨hs.shows, hs.plain, ?_⟩, fun e t h => ?_,
      fun st t left h ht => ?_⟩
    · rw [← hs.scope]
      rfl
    · exact ⟨t.popLabel, withLabel_of_error h⟩
    · refine ⟨t.popLabel, withLabel_of_ok h, ht.shows, ht.plain, ?_⟩
      change { t.scope with labels := t.scope.labels.tail } = σ
      rw [ht.scope]
      rfl

end Within

section Wraps

variable {d : Descent} {σ : Scope} {options : ParseOptions} (hd : Answers options d)
  {words rest : List Word} {s u : ParseState}

/-- The rules for the statements that begin with some of the words. -/
def ruleOf? (d : Descent) : TokenKind → Option (Parser Statement)
  | .braceL => some do return .blockStatement (← block d false)
  | .keyword .while => some (whileStatement d)
  | .keyword .for => some (forStatement d)
  | .keyword .if => some (ifStatement d)
  | .keyword .try => some (tryStatement d)
  | .keyword .break => some (jumpStatement .break)
  | .keyword .continue => some (jumpStatement .continue)
  | _ => none

/-- To read a statement at `s` is to read one at `u`, in the scope of a label if there is one, and
to go on with more, which succeeds before the words `left` and takes them down to `rest`. -/
def Wraps (d : Descent) (σ : Scope) (label : Option Label) (left rest : List Word)
    (s u : ParseState) : Prop :=
  ∃ more : Statement → Parser Statement,
    d .statement s = (within label (d .statement) >>= more) u ∧
    ∀ body v, v.Before σ left →
      ∃ st t, more body v = .ok st t ∧ directive? st = none ∧ t.Before σ rest

theorem bind_congr_run {α β : Type} {p q : Parser α} {f : α → Parser β} (h : p s = q u) :
    (p >>= f) s = (q >>= f) u := by
  change EStateM.bind p f s = EStateM.bind q f u
  unfold EStateM.bind
  rw [h]

include hd

/-- The first word of a statement says which rule reads it. -/
theorem statement_eq_of_rule {p : Parser Statement} (h : ruleOf? d s.kind = some p) :
    d .statement s = p s := by
  have hnone : declarationKind? s = .ok none s := by
    unfold ruleOf? at h
    split at h <;> first | cases h; done | simp [declarationKind?, ‹s.stream.token.kind = _›]
  rw [← hd.rule_eq .statement s trivial]
  change statement d options s = _
  unfold statement
  rw [bind_of_ok hnone]
  dsimp only
  rw [bind_of_ok (kind_eq_ok.mpr ⟨rfl, rfl⟩)]
  unfold ruleOf? at h
  split at h <;> cases h <;> rw [‹s.kind = _›]

/-- Statements before a closing brace begin with the first of them. -/
theorem statements_eq_cons (hbrace : u.kind ≠ .braceR) (heof : u.kind ≠ .eof) :
    d (.statements false .braceR) u = (d .statement >>= fun body => do
      let others ← d (.statements false .braceR)
      return body :: others) u := by
  rw [← hd.rule_eq (.statements false .braceR) u trivial]
  change statements d false .braceR u = _
  unfold statements
  rw [bind_of_ok (sees_eq_ok.mpr ⟨(beq_eq_false_iff_ne.mpr hbrace).symm, rfl⟩),
    if_neg Bool.false_ne_true,
    bind_of_ok (sees_eq_ok.mpr ⟨(beq_eq_false_iff_ne.mpr heof).symm, rfl⟩),
    if_neg Bool.false_ne_true]

/-- At a closing brace the statements of a block are over. -/
theorem statements_of_close {v t : ParseState} (h : Takes .braceR v t) :
    d (.statements false .braceR) v = .ok [] t := by
  rw [← hd.rule_eq (.statements false .braceR) v trivial]
  simp [rule, statements, h.1]
  exact h.2

/-- The expression in the heads of statements. -/
theorem readsExpression_this (hσ : σ.inGenerator = false) :
    ReadsExpression d σ [.keyword .this] (.this default) :=
  (readsPrimary_this hd default).expression hd hσ rfl rfl

/-- A block is read by reading the statement it begins with. -/
theorem exists_block (hs : s.Before σ (.braceL :: (words ++ .braceR :: rest)))
    (hstop : ∀ u : ParseState, u.Before σ (words ++ .braceR :: rest) →
      u.kind ≠ .braceR ∧ u.kind ≠ .eof) :
    ∃ u, s.Follows u ∧ u.Before σ (words ++ .braceR :: rest) ∧
      ∃ more : Statement → Parser Block, block d false s = (d .statement >>= more) u ∧
        ∀ body v, v.Before σ (.braceR :: rest) →
          ∃ b t, more body v = .ok b t ∧ t.Before σ rest := by
  obtain ⟨u, hopening, hu⟩ := hs.takes
  obtain ⟨hbrace, heof⟩ := hstop u hu
  have hexpect : expect .braceL s = .ok () u := expect_eq_ok.mpr hopening
  refine ⟨u, Trail.follows_of_takes hopening nofun, hu, fun body => do
    let others ← d (.statements false .braceR)
    return .block (← finish s.place) (.ofList (body :: others)), ?_, ?_⟩
  · unfold block
    rw [bind_of_ok (here_eq_ok.mpr ⟨rfl, rfl⟩), bind_of_ok hexpect,
      bind_congr_run (statements_eq_cons hd hbrace heof)]
    simp only [bind_assoc, pure_bind]
  · intro body v hv
    obtain ⟨t, hclosing, ht⟩ := hv.takes
    have hothers : d (.statements false .braceR) v = .ok [] t := statements_of_close hd hclosing
    exact ⟨.block (t.spanFrom s.place) (.ofList [body]), t, by simp [hothers], ht⟩

/-- A statement in braces is what the braces begin with. -/
theorem wraps_block (hs : s.Before σ (.braceL :: (words ++ .braceR :: rest)))
    (hstop : ∀ u : ParseState, u.Before σ (words ++ .braceR :: rest) →
      u.kind ≠ .braceR ∧ u.kind ≠ .eof) :
    ∃ u, s.Follows u ∧ u.Before σ (words ++ .braceR :: rest) ∧
      Wraps d σ none (.braceR :: rest) rest s u := by
  obtain ⟨u, hfollows, hu, more, hblock, hmore⟩ := exists_block hd hs hstop
  refine ⟨u, hfollows, hu, fun body => do return .blockStatement (← more body), ?_, ?_⟩
  · have hrule : ruleOf? d s.kind = some do return .blockStatement (← block d false) := by
      rw [hs.kind_eq]
      rfl
    rw [statement_eq_of_rule hd hrule, bind_congr_run hblock]
    simp only [bind_assoc, within]
  · intro body v hv
    obtain ⟨b, t, hb, ht⟩ := hmore body v hv
    exact ⟨.blockStatement b, t, by simp [hb], rfl, ht⟩

/-- A statement in the block of a `try` is what the block begins with. -/
theorem wraps_try (hs : s.Before σ (Wrapper.tryBlock.opening ++
      (words ++ (Wrapper.tryBlock.closing ++ rest))))
    (hstop : ∀ u : ParseState, u.Before σ (words ++ (Wrapper.tryBlock.closing ++ rest)) →
      u.kind ≠ .braceR ∧ u.kind ≠ .eof) :
    ∃ u, s.Follows u ∧ u.Before σ (words ++ (Wrapper.tryBlock.closing ++ rest)) ∧
      Wraps d σ none (Wrapper.tryBlock.closing ++ rest) rest s u := by
  obtain ⟨s₁, hword, hs₁⟩ := hs.takes
  obtain ⟨u, hfollows, hu, more, hblock, hmore⟩ := exists_block hd hs₁ hstop
  refine ⟨u, (Trail.follows_of_takes hword nofun).trans hfollows, hu, fun body => do
    let body ← more body
    let handler ← if ← sees (.keyword .catch) then some <$> catchClause d else pure none
    let finalizer ← if ← eat (.keyword .finally) then some <$> block d false else pure none
    if handler.isNone && finalizer.isNone then fail .missingHandler s.place
    else return .tryStatement (← finish s.place) body (.ofOption handler) (.ofOption finalizer),
    ?_, ?_⟩
  · have hrule : ruleOf? d s.kind = some (tryStatement d) := hword.1 ▸ rfl
    rw [statement_eq_of_rule hd hrule]
    unfold tryStatement
    rw [bind_of_ok (here_eq_ok.mpr ⟨rfl, rfl⟩), bind_of_ok hword.2, bind_congr_run hblock]
    simp only [bind_assoc, within]
  · intro body v hv
    obtain ⟨b, v₁, hb, hv₁⟩ := hmore body v hv
    obtain ⟨v₂, hfinally, hv₂⟩ := hv₁.takes
    obtain ⟨v₃, hopening, hv₃⟩ := hv₂.takes
    obtain ⟨t, hclosing, ht⟩ := hv₃.takes
    have hkind : v₁.kind = .keyword .finally := hfinally.1
    have hempty : block d false v₂ = .ok (.block (t.spanFrom v₂.place) .nil) t := by
      simp [block]
      exact ⟨v₃, hopening, [], statements_of_close hd hclosing, rfl⟩
    refine ⟨.tryStatement (t.spanFrom s.place) b .absent
      (.present (.block (t.spanFrom v₂.place) .nil)), t, ?_, rfl, ht⟩
    simp [hb, hkind]
    exact ⟨v₂, hfinally, _, hempty, rfl, rfl⟩

/-- The head of a statement. -/
theorem exists_head (hσ : σ.inGenerator = false)
    (hs : s.Before σ (.parenL :: .keyword .this :: .parenR :: rest)) :
    ∃ test t, headExpression d s = .ok test t ∧ s.Follows t ∧ t.Before σ rest := by
  obtain ⟨s₁, hopening, hs₁⟩ := hs.takes
  obtain ⟨test, s₂, htest, -, hs₂⟩ := (readsExpression_this hd hσ).read hd hs₁
    (TokenKind.closes_of_none rfl rfl rfl rfl) nofun
  obtain ⟨t, hclosing, ht⟩ := hs₂.takes
  have hopen : expect .parenL s = .ok () s₁ := expect_eq_ok.mpr hopening
  have hclose : expect .parenR s₂ = .ok () t := expect_eq_ok.mpr hclosing
  refine ⟨test, t, ?_, ?_, ht⟩
  · unfold headExpression
    rw [bind_of_ok hopen, bind_of_ok htest, bind_of_ok hclose]
    rfl
  · exact (Trail.follows_of_takes hopening (by decide)).trans
      ((Trail.follows_of_expression hd.traces htest).trans
        (Trail.follows_of_takes hclosing (by decide)))

/-- The body of an `if` that has no other. -/
theorem wraps_if (hσ : σ.inGenerator = false) (helse : kindAhead rest ≠ .keyword .else)
    (hs : s.Before σ (Wrapper.ifBody.opening ++ (words ++ rest))) :
    ∃ u, s.Follows u ∧ u.Before σ (words ++ rest) ∧ Wraps d σ none rest rest s u := by
  obtain ⟨s₁, hword, hs₁⟩ := hs.takes
  obtain ⟨test, u, hhead, hfollows, hu⟩ := exists_head hd hσ hs₁
  refine ⟨u, (Trail.follows_of_takes hword nofun).trans hfollows, hu, fun body => do
    let alternate ← if ← eat (.keyword .else) then Node.present <$> d .statement else pure .absent
    return .ifStatement (← finish s.place) test body alternate, ?_, ?_⟩
  · have hrule : ruleOf? d s.kind = some (ifStatement d) := hword.1 ▸ rfl
    rw [statement_eq_of_rule hd hrule]
    unfold ifStatement
    rw [bind_of_ok (here_eq_ok.mpr ⟨rfl, rfl⟩), bind_of_ok hword.2, bind_of_ok hhead]
    rfl
  · intro body v hv
    have hnext : v.kind ≠ .keyword .else := hv.kind_eq ▸ helse
    exact ⟨.ifStatement (v.spanFrom s.place) test body .absent, v, by simp [hnext], rfl, hv⟩

/-- The body of a loop is read with the label of loops. -/
theorem wraps_while (hσ : σ.inGenerator = false)
    (hs : s.Before σ (Wrapper.whileBody.opening ++ (words ++ rest))) :
    ∃ u, s.Follows u ∧ u.Before σ (words ++ rest) ∧
      Wraps d σ (some ⟨none, true⟩) rest rest s u := by
  obtain ⟨s₁, hword, hs₁⟩ := hs.takes
  obtain ⟨test, u, hhead, hfollows, hu⟩ := exists_head hd hσ hs₁
  refine ⟨u, (Trail.follows_of_takes hword nofun).trans hfollows, hu, fun body => do
    return .whileStatement (← finish s.place) test body, ?_, ?_⟩
  · have hrule : ruleOf? d s.kind = some (whileStatement d) := hword.1 ▸ rfl
    rw [statement_eq_of_rule hd hrule]
    unfold whileStatement
    rw [bind_of_ok (here_eq_ok.mpr ⟨rfl, rfl⟩), bind_of_ok hword.2, bind_of_ok hhead]
    rfl
  · intro body v hv
    exact ⟨.whileStatement (v.spanFrom s.place) test body, v, by simp, rfl, hv⟩

/-- So is the body of a loop whose head is empty. -/
theorem wraps_for (hs : s.Before σ (Wrapper.forBody.opening ++ (words ++ rest))) :
    ∃ u, s.Follows u ∧ u.Before σ (words ++ rest) ∧
      Wraps d σ (some ⟨none, true⟩) rest rest s u := by
  obtain ⟨s₁, hfor, hs₁⟩ := hs.takes
  obtain ⟨s₂, hopening, hs₂⟩ := hs₁.takes
  obtain ⟨s₃, hfirst, hs₃⟩ := hs₂.takes
  obtain ⟨s₄, hsecond, hs₄⟩ := hs₃.takes
  obtain ⟨u, hclosing, hu⟩ := hs₄.takes
  have hword : Takes (.keyword .for) s s₁ := hfor
  have hopen : expect .parenL s₁ = .ok () s₂ := expect_eq_ok.mpr hopening
  have hsemi : expect .semi s₂ = .ok () s₃ := expect_eq_ok.mpr hfirst
  have hsemi' : expect .semi s₃ = .ok () s₄ := expect_eq_ok.mpr hsecond
  have hclose : expect .parenR s₄ = .ok () u := expect_eq_ok.mpr hclosing
  have hnone : sees .semi s₂ = .ok true s₂ :=
    sees_eq_ok.mpr ⟨(beq_iff_eq.mpr hfirst.1).symm, rfl⟩
  have hfollows : s.Follows u :=
    (Trail.follows_of_takes hfor nofun).trans ((Trail.follows_of_takes hopening nofun).trans
      ((Trail.follows_of_takes hfirst nofun).trans ((Trail.follows_of_takes hsecond nofun).trans
        (Trail.follows_of_takes hclosing nofun))))
  have habsent : ∀ {k : TokenKind} {t : ParseState}, t.kind = k →
      optionalExpression d k t = .ok .absent t := by
    rintro k t rfl
    simp [optionalExpression]
  have htest : optionalExpression d .semi s₃ = .ok .absent s₃ := habsent hsecond.1
  have hupdate : optionalExpression d .parenR s₄ = .ok .absent s₄ := habsent hclosing.1
  refine ⟨u, hfollows, hu, fun body => do
    return .forStatement (← finish s.place) .absent .absent .absent body, ?_, ?_⟩
  · have hrule : ruleOf? d s.kind = some (forStatement d) := hword.1 ▸ rfl
    rw [statement_eq_of_rule hd hrule]
    unfold forStatement
    rw [bind_of_ok (here_eq_ok.mpr ⟨rfl, rfl⟩), bind_of_ok hword.2,
      bind_of_ok hopen, bind_of_ok hnone, if_pos rfl]
    unfold forParts
    rw [bind_of_ok hsemi, bind_of_ok htest, bind_of_ok hsemi', bind_of_ok hupdate,
      bind_of_ok hclose]
    rfl
  · intro body v hv
    exact ⟨.forStatement (v.spanFrom s.place) .absent .absent .absent body, v, by simp, rfl, hv⟩

/-- The name that a loop sets to the keys or the values of something. -/
theorem exists_loopTarget (hσ : σ.inGenerator = false) {w : Word} (hclose : w.kind.Closes true)
    (hcomma : w.kind ≠ .comma) (hs : s.Before σ (.name "item" :: w :: rest)) :
    ∃ span t, expressionWith d true false none s = .ok (.identifier ⟨span, "item"⟩, none) t ∧
      s.Follows t ∧ t.Before σ (w :: rest) := by
  have hprimary : ReadsPrimary d σ [.name "item"] (.identifier ⟨default, "item"⟩) :=
    readsPrimary_identifier hd default "item"
  have hvalue : ReadsValue d σ true [.name "item"] (.identifier ⟨default, "item"⟩) :=
    readsValue_of_operators hd hσ (readsOperators_of_operand
      (readsOperand_of_suffixed hd (readsSuffixed_of_primary hprimary rfl false)) rfl true 1)
  obtain ⟨e', t, hread, hsame, ht⟩ := hvalue s (w :: rest) false hs hclose
  have hkind : t.kind ≠ .comma := ht.kind_eq ▸ hcomma
  cases e' with
  | identifier id =>
    obtain ⟨span, name⟩ := id
    obtain rfl : name = "item" := congrArg Identifier.name (Node.identifier.inj hsame)
    have hwith : expressionWith d true false none s =
        .ok (.identifier ⟨span, "item"⟩, none) t := by
      simp [expressionWith, hread, hkind]
    exact ⟨span, t, hwith, Trail.follows_of_expressionWith hd.traces (of_expressionWith hwith), ht⟩
  | _ => cases hsame

/-- What a loop goes over is `this`. -/
theorem exists_loopSource (hσ : σ.inGenerator = false) (keys : Bool)
    (hs : s.Before σ (.keyword .this :: .parenR :: rest)) :
    ∃ right t, (if keys then expression d false else d.value false) s = .ok right t ∧
      s.Follows t ∧ t.Before σ (.parenR :: rest) := by
  cases keys with
  | true =>
    obtain ⟨right, t, hread, -, ht⟩ := (readsExpression_this hd hσ).read hd hs
      (TokenKind.closes_of_none rfl rfl rfl rfl) nofun
    exact ⟨right, t, hread, Trail.follows_of_expression hd.traces hread, ht⟩
  | false =>
    have hoperand : ReadsOperand d σ [.keyword .this] (.this default) :=
      readsOperand_of_suffixed hd
        (readsSuffixed_of_primary (readsPrimary_this hd default) rfl false)
    obtain ⟨right, t, hread, -, ht⟩ :=
      readsValue_of_operators hd hσ (readsOperators_of_operand hoperand rfl false 1) s _ true hs
        (TokenKind.closes_of_none rfl rfl rfl rfl)
    have hvalue : d.value false s = .ok right t := by simp [Descent.value, hread]
    exact ⟨right, t, hvalue, Trail.follows_of_value hd.traces hvalue, ht⟩

omit hd in
/-- The word before what a loop goes over is seen, and says which of the two loops it is. -/
theorem sees_link {keys : Bool} (hs : s.Before σ (Wrapper.link keys :: rest)) :
    seesForEach s = .ok true s ∧ sees (.keyword .in) s = .ok keys s := by
  have hkind : s.stream.token.kind = (Wrapper.link keys).kind := hs.kind_eq
  have hvalue : s.stream.token.value = (Wrapper.link keys).value := hs.value_eq
  constructor
  · simp [seesForEach, ParseState.isWord, hkind, hvalue]
    cases keys <;> decide
  · refine sees_eq_ok.mpr ⟨?_, rfl⟩
    rw [hs.kind_eq]
    cases keys <;> rfl

/-- The body of a loop over the keys or the values of something. -/
theorem wraps_forEach (hσ : σ.inGenerator = false) (keys : Bool)
    (hs : s.Before σ ((Wrapper.forEachBody keys).opening ++ (words ++ rest))) :
    ∃ u, s.Follows u ∧ u.Before σ (words ++ rest) ∧
      Wraps d σ (some ⟨none, true⟩) rest rest s u := by
  obtain ⟨s₁, hfor, hs₁⟩ := hs.takes
  obtain ⟨s₂, hopening, hs₂⟩ := hs₁.takes
  have hword : Takes (.keyword .for) s s₁ := hfor
  have hopen : expect .parenL s₁ = .ok () s₂ := expect_eq_ok.mpr hopening
  have hname : s₂.kind = .name := hs₂.kind_eq
  have hsemi : sees .semi s₂ = .ok false s₂ := sees_eq_ok.mpr ⟨by rw [hname]; decide, rfl⟩
  have hlet : s₂.isWord "let" = false := by
    refine not_isWord_let (fun w hw _ hlet => ?_) hs₂
    cases hw
    exact absurd (Option.some.inj hlet) (by decide)
  have hnone : declarationKind? s₂ = .ok none s₂ := declarationKind?_of_opens (hname ▸ rfl) hlet
  have hclose : (Wrapper.link keys).kind.Closes true := by
    cases keys
    · exact TokenKind.closes_of_none rfl rfl rfl rfl
    · exact ⟨⟨rfl, fun _ _ => .inr ⟨rfl, rfl⟩⟩, nofun, rfl⟩
  obtain ⟨span, s₃, htarget, htargetFollows, hs₃⟩ :=
    exists_loopTarget hd hσ hclose (by cases keys <;> nofun) hs₂
  obtain ⟨s₄, hlink, hs₄⟩ := hs₃.takes
  obtain ⟨right, s₅, hright, hrightFollows, hs₅⟩ := exists_loopSource hd hσ keys hs₄
  obtain ⟨u, hclosing, hu⟩ := hs₅.takes
  obtain ⟨hseen, hkeys⟩ := sees_link hs₃
  let target : Pattern := .namePattern ⟨span, "item"⟩
  have hpattern : lift (Expression.toPattern (.identifier ⟨span, "item"⟩) false) s₃ =
      .ok target s₃ := lift_eq_ok.mpr ⟨rfl, rfl⟩
  have hlegal : checkTarget false target s₃ = .ok () s₃ := by
    refine checkTarget_eq_ok.mpr ⟨?_, rfl⟩
    cases s₃.scope.strict <;> rfl
  have hend : expect .parenR s₅ = .ok () u := expect_eq_ok.mpr hclosing
  have hfollows : s.Follows u :=
    (Trail.follows_of_takes hfor nofun).trans ((Trail.follows_of_takes hopening nofun).trans
      (htargetFollows.trans ((Trail.follows_of_takes hlink (by cases keys <;> nofun)).trans
        (hrightFollows.trans (Trail.follows_of_takes hclosing nofun)))))
  refine ⟨u, hfollows, hu, fun body => do
    let whole ← finish s.place
    return if keys then .forInStatement whole (.targetPattern target) right body
      else .forOfStatement whole (.targetPattern target) right body, ?_, ?_⟩
  · have hrule : ruleOf? d s.kind = some (forStatement d) := hword.1 ▸ rfl
    rw [statement_eq_of_rule hd hrule]
    unfold forStatement
    rw [bind_of_ok (here_eq_ok.mpr ⟨rfl, rfl⟩), bind_of_ok hword.2, bind_of_ok hopen,
      bind_of_ok hsemi, if_neg Bool.false_ne_true, bind_of_ok hnone]
    change forExpression d s.place s₂ = _
    unfold forExpression
    rw [bind_of_ok htarget]
    dsimp only
    rw [bind_of_ok hseen, if_pos rfl, bind_of_ok hpattern, bind_of_ok hlegal]
    unfold forEach
    rw [bind_of_ok hkeys, bind_of_ok hlink.2, ite_bind, bind_of_ok hright]
    dsimp only
    rw [bind_of_ok hend]
    rfl
  · intro body v hv
    refine ⟨_, v, by simp; rfl, ?_, hv⟩
    cases keys <;> rfl

/-- A statement behind a name and a colon is read with that label. -/
theorem wraps_label (hσ : σ.inGenerator = false) {name : String} (ordinary : IsOrdinaryName name)
    (hs : s.Before σ (.name name :: .colon :: (words ++ rest)))
    (fresh : ∀ l ∈ σ.labels, l.name ≠ some name) :
    ∃ u, s.Follows u ∧ u.Before σ (words ++ rest) ∧
      Wraps d σ (some ⟨some name, u.kind.isLoop⟩) rest rest s u := by
  have hlabel : ReadsExpression d σ [.name name] (.identifier ⟨default, name⟩) :=
    (readsPrimary_identifier hd default name).expression hd hσ rfl rfl
  obtain ⟨e', t, hread, hsame, ht⟩ :=
    hlabel.read hd hs (TokenKind.closes_of_none rfl rfl rfl rfl) nofun
  obtain ⟨id, rfl, rfl⟩ : ∃ id, e' = .identifier id ∧ id.name = name := by
    cases e' with
    | identifier id => exact ⟨id, rfl, congrArg Identifier.name (Node.identifier.inj hsame)⟩
    | _ => cases hsame
  obtain ⟨u, htakes, hu⟩ := ht.takes
  have hcolon : Takes .colon t u := htakes
  have hkind : s.kind = .name := hs.kind_eq
  have hfollows : s.Follows u :=
    (Trail.follows_of_expression hd.traces hread).trans (Trail.follows_of_takes hcolon nofun)
  refine ⟨u, hfollows, hu, fun body => do
    return .labeledStatement (← finish s.place) id body, ?_, ?_⟩
  · have hfresh : ¬(t.scope.labels.any fun l => l.name == some id.name) = true := by
      rw [List.any_eq_true, ht.scope]
      rintro ⟨l, hl, hname⟩
      exact fresh l hl (eq_of_beq hname)
    have hlet : s.isWord "let" = false := by
      refine not_isWord_let (fun w hw _ hlet => ordinary.not_let ?_) hs
      cases hw
      exact Option.some.inj hlet
    rw [← hd.rule_eq .statement s trivial]
    refine (statement_eq_of_opens (hkind ▸ rfl) hlet).trans ?_
    have hname : sees .name s = .ok true s := sees_eq_ok.mpr ⟨(beq_iff_eq.mpr hkind).symm, rfl⟩
    have hsees : sees .colon t = .ok true t :=
      sees_eq_ok.mpr ⟨(beq_iff_eq.mpr hcolon.1).symm, rfl⟩
    unfold expressionStatement
    rw [bind_of_ok (here_eq_ok.mpr ⟨rfl, rfl⟩), bind_of_ok hname, bind_of_ok hread,
      bind_of_ok hsees]
    change labeledStatement d s.place id t = _
    unfold labeledStatement
    rw [bind_of_ok (get_eq_ok.mpr ⟨rfl, rfl⟩), if_neg hfresh, bind_of_ok hcolon.2,
      bind_of_ok (kind_eq_ok.mpr ⟨rfl, rfl⟩)]
    rfl
  · intro body v hv
    exact ⟨.labeledStatement (v.spanFrom s.place) id body, v, by simp, rfl, hv⟩

end Wraps

end Grammar

end EcmaTree
