import EcmaTree.Proofs.Grammar.Wrapper

/-!
# Labels in reach of a jump

A jump may stand in blocks, under `if`, in the block of a `try`, in the bodies of loops and behind
labels, in any nesting. With `break` it reaches every label around it. With `continue` it reaches a
label only if a loop comes directly behind it, so that of several labels before one loop it is the
last one.
-/

namespace EcmaTree

open EcmaTree.Parser EcmaTree.Grammar EcmaTree.Reading

namespace Jump

def keyword : Jump → Keyword
  | .break => .break
  | .continue => .continue

/-- The words of the jump with what stands around it, from the outermost wrapper on. -/
def words (jump : Jump) (name : String) : List Wrapper → List Word
  | [] => [.keyword jump.keyword, .name name, .semi]
  | w :: path => w.opening ++ (words jump name path ++ w.closing)

/-- The words with a space behind each of them. -/
def spaced (words : List Word) : List Char :=
  words.flatMap fun w => w.text ++ [' ']

/-- The text of the jump with what stands around it. -/
def text (jump : Jump) (name : String) (path : List Wrapper) : List Char :=
  spaced (jump.words name path)

/-- The labels that are known at the jump, the innermost first. -/
def labels : List Wrapper → List Label → List Label
  | [], around => around
  | w :: path, around => labels path ((w.label? path).toList ++ around)

/-- Whether the jump reaches its label. -/
def Reaches (jump : Jump) (name : String) (path : List Wrapper) : Prop :=
  match jump with
  | .break => .label name ∈ path
  | .continue => ∃ outer loop inner,
      path = outer ++ .label name :: loop :: inner ∧ loop.isLoop = true

end Jump

namespace Grammar

section Outcome

variable {d : Descent} {σ : Scope} {options : ParseOptions} (hd : Answers options d)
  {rest : List Word} {s : ParseState}

include hd

/-- A jump is read if it finds its label, and fails where it begins if it does not. -/
theorem jump_outcome {jump : Jump} {name : String}
    (hs : s.Before σ (.keyword jump.keyword :: .name name :: .semi :: rest))
    (hline : s.stream.OnOneLine) :
    ∃ t, t.Before σ rest ∧ if σ.labels.any (isJumpTarget jump (some name)) = true then
        ∃ st, d .statement s = .ok st t ∧ directive? st = none
      else d .statement s = .error (.fault ⟨.jumpWithoutTarget jump, s.place⟩) t := by
  obtain ⟨s₁, hword, hs₁⟩ := hs.takes
  obtain ⟨span, s₂, hid, hs₂⟩ := identifier_of_name hs₁ false
  obtain ⟨t, hsemi, ht⟩ := hs₂.takes
  have hkind : s₁.kind = .name := hs₁.kind_eq
  have hends : s₁.endsStatement = false := by
    have hbreak : s₁.stream.afterLineBreak = false :=
      hline _ (Trail.follows_of_takes hword (by cases jump <;> nofun))
    simp [ParseState.endsStatement, hkind, hbreak]
  have hlabel : jumpStatement.jumpLabel s₁ = .ok (some ⟨span, name⟩) t := by
    simp [jumpStatement.jumpLabel, hkind, hends, hid]
    exact .inl hsemi
  have hrule : ruleOf? d s.kind = some (jumpStatement jump) := by
    rw [hword.1]
    cases jump <;> rfl
  refine ⟨t, ht, ?_⟩
  rw [statement_eq_of_rule hd hrule]
  unfold jumpStatement
  rw [bind_of_ok (here_eq_ok.mpr ⟨rfl, rfl⟩), bind_of_ok hword.2, bind_of_ok hlabel,
    bind_of_ok (get_eq_ok.mpr ⟨rfl, rfl⟩), ht.scope]
  dsimp only [Option.map_some]
  split
  · cases jump
    · exact ⟨.breakStatement (t.spanFrom s.place) (some ⟨span, name⟩), by simp, rfl⟩
    · exact ⟨.continueStatement (t.spanFrom s.place) (some ⟨span, name⟩), by simp, rfl⟩
  · rfl

end Outcome

end Grammar

namespace Jump

variable {jump : Jump} {name : String} {path : List Wrapper} {around : List Label}
  {rest : List Word}

/-- The words begin a loop if the first wrapper is one, and in no case do they end something. -/
theorem kindAhead_words :
    (kindAhead (jump.words name path ++ rest)).isLoop = path.head?.any Wrapper.isLoop ∧
      kindAhead (jump.words name path ++ rest) ≠ .braceR ∧
      kindAhead (jump.words name path ++ rest) ≠ .eof := by
  cases path with
  | nil => cases jump <;> exact ⟨rfl, nofun, nofun⟩
  | cons w path => cases w <;> exact ⟨rfl, nofun, nofun⟩

theorem not_arrow_of_mem_words : ∀ w ∈ jump.words name path, w.kind ≠ .arrow := by
  have hall : (jump.words name path).all (·.kind != .arrow) = true := by
    induction path with
    | nil => cases jump <;> rfl
    | cons w path ih =>
      rw [words, List.all_append, List.all_append, ih]
      cases w with
      | forEachBody keys => cases keys <;> rfl
      | _ => rfl
  exact fun w hw => bne_iff_ne.mp (List.all_eq_true.mp hall w hw)

theorem reaches_cons {w : Wrapper} : jump.Reaches name (w :: path) ↔
    (w = .label name ∧ (jump = .continue → path.head?.any Wrapper.isLoop = true)) ∨
      jump.Reaches name path := by
  cases jump
  · have hmem : Wrapper.label name ∈ w :: path ↔ w = .label name ∨ .label name ∈ path := by
      rw [List.mem_cons, eq_comm]
    simpa [Reaches] using hmem
  · constructor
    · rintro ⟨outer, loop, inner, hpath, hloop⟩
      cases outer with
      | nil =>
        obtain ⟨rfl, rfl⟩ := List.cons.inj hpath
        exact .inl ⟨rfl, fun _ => hloop⟩
      | cons first outer => exact .inr ⟨outer, loop, inner, (List.cons.inj hpath).2, hloop⟩
    · rintro (⟨rfl, hnext⟩ | ⟨outer, loop, inner, rfl, hloop⟩)
      · obtain ⟨loop, hhead, hloop⟩ := (Option.any_eq_true _ _).mp (hnext rfl)
        obtain ⟨inner, rfl⟩ := List.head?_eq_some_iff.mp hhead
        exact ⟨[], loop, inner, rfl, hloop⟩
      · exact ⟨w :: outer, loop, inner, rfl, hloop⟩

theorem names_cons (w : Wrapper) (path : List Wrapper) :
    (w :: path).filterMap Wrapper.name? = w.name?.toList ++ path.filterMap Wrapper.name? := by
  cases w <;> rfl

theorem name_of_mem_label? {w : Wrapper} {l : Label} (h : l ∈ w.label? path) :
    l.name = w.name? := by
  cases w <;> cases h <;> rfl

/-- A wrapper adds a label that the jump reaches if it has its name and, for `continue`, if a loop
comes next. -/
theorem any_label?_iff {w : Wrapper} :
    (w.label? path).toList.any (isJumpTarget jump (some name)) = true ↔
      w = .label name ∧ (jump = .continue → path.head?.any Wrapper.isLoop = true) := by
  cases w with
  | label other => cases jump <;> simp [Wrapper.label?, isJumpTarget]
  | _ => cases jump <;> simp [Wrapper.label?, isJumpTarget]

/-- The labels that are known at the jump are those on the path and those around it. -/
theorem any_labels_iff : (labels path around).any (isJumpTarget jump (some name)) = true ↔
    jump.Reaches name path ∨ around.any (isJumpTarget jump (some name)) = true := by
  induction path generalizing around with
  | nil => cases jump <;> simp [labels, Reaches]
  | cons w path ih =>
    rw [labels, ih, reaches_cons, List.any_append, Bool.or_eq_true, any_label?_iff,
      or_left_comm, or_assoc]

section Text

theorem spaced_cons (w : Word) (others : List Word) (after : List Char) :
    spaced (w :: others) ++ after = w.text ++ ' ' :: (spaced others ++ after) := by
  simp [spaced]

theorem spaced_append (first second : List Word) (after : List Char) :
    spaced (first ++ second) ++ after = spaced first ++ (spaced second ++ after) := by
  simp [spaced]

/-- The marks in the words are read before whatever follows. -/
theorem isRead_mark {w : Word} {allowed : Bool} {following : List Char}
    (h : w ∈ [Word.semi, .colon, .parenL, .parenR, .braceL, .braceR]) :
    w.IsRead allowed following := by
  simp only [List.mem_cons, List.not_mem_nil, or_false] at h
  rcases h with rfl | rfl | rfl | rfl | rfl | rfl <;>
    exact Word.isRead_closed (by decide) (by decide) (by decide) (by decide)

/-- Kinds of tokens behind which a statement begins. -/
def BeginsStatement (k : TokenKind) : Prop :=
  k = .eof ∨ k = .colon ∨ k = .parenR ∨ k = .braceL

variable {c c' : ContextStack} {k : TokenKind} {below : List Context} {allowed : Bool}
  {after : List Char} {left : List Word} {w : Word}

/-- A word with a space behind it. -/
theorem written_word (hstep : c.step k w.kind false = c') (hc : c.top ≠ .quoteTemplate)
    (hc' : c'.top ≠ .quoteTemplate) (hread : w.IsRead c.expressionAllowed (' ' :: after))
    (more : TokenStream.Written c' w.kind after left) :
    TokenStream.Written c k (w.text ++ ' ' :: after) (w :: left) := by
  subst hstep
  exact .word hc hread (.space hc' more)

/-- A word that keeps the contexts, with a space behind it. -/
theorem written_keeping {stack : List Context} (hkeeps : w.kind.keepsStack = true)
    (htop : stack.headD .braceStatement ≠ .quoteTemplate) (hread : w.IsRead allowed (' ' :: after))
    (more : ∀ allowed', TokenStream.Written ⟨stack, allowed'⟩ w.kind after left) :
    TokenStream.Written ⟨stack, allowed⟩ k (w.text ++ ' ' :: after) (w :: left) := by
  obtain ⟨allowed', hstep⟩ : ∃ allowed',
      (⟨stack, allowed⟩ : ContextStack).step k w.kind false = ⟨stack, allowed'⟩ :=
    ContextStack.step_of_keepsStack hkeeps
  exact written_word hstep htop htop hread (more allowed')

/-- The head of an `if` or a `while`. -/
theorem written_head (hk : k = .keyword .if ∨ k = .keyword .while)
    (more : TokenStream.Written ⟨.braceStatement :: below, true⟩ .parenR after left) :
    TokenStream.Written ⟨.braceStatement :: below, allowed⟩ k
      (spaced [.parenL, .keyword .this, .parenR] ++ after)
      (.parenL :: .keyword .this :: .parenR :: left) := by
  have hstep : (⟨.braceStatement :: below, allowed⟩ : ContextStack).step k .parenL false =
      ⟨.parenStatement :: .braceStatement :: below, true⟩ := by
    rcases hk with rfl | rfl <;> rfl
  rw [spaced_cons, spaced_cons, spaced_cons]
  refine written_word hstep nofun nofun (isRead_mark (by simp)) ?_
  refine written_keeping rfl nofun
    (Word.isRead_keyword _ (Word.isIdentifierPart_of_space rfl)) fun _ => ?_
  exact written_word rfl nofun nofun (isRead_mark (by simp)) more

/-- The contexts at a statement in a wrapper that stands in a block. -/
def contextsIn (below : List Context) : Wrapper → List Context
  | .block | .tryBlock => .braceStatement :: .braceStatement :: below
  | _ => .braceStatement :: below

/-- The names in the heads of loops. -/
theorem isOrdinaryName_head : IsOrdinaryName "item" ∧ IsOrdinaryName "of" :=
  ⟨⟨⟨_, _, rfl, by decide, List.all_eq_true.mp (by decide)⟩, by decide, by decide, by decide⟩,
    ⟨⟨_, _, rfl, by decide, List.all_eq_true.mp (by decide)⟩, by decide, by decide, by decide⟩⟩

theorem isRead_link {keys : Bool} :
    (Wrapper.link keys).IsRead allowed (' ' :: after) := by
  have hspace : ∀ c ∈ (' ' :: after).head?, isIdentifierPart c = false :=
    Word.isIdentifierPart_of_space rfl
  cases keys with
  | true => exact Word.isRead_keyword _ hspace
  | false => exact Word.isRead_name isOrdinaryName_head.2 hspace

/-- The text before a statement is written in the words before it, and behind them a statement
begins. -/
theorem written_opening (w : Wrapper) (ordinary : ∀ n ∈ w.name?, IsOrdinaryName n)
    (hk : BeginsStatement k) (more : ∀ allowed k, BeginsStatement k →
      TokenStream.Written ⟨contextsIn below w, allowed⟩ k after left) :
    TokenStream.Written ⟨.braceStatement :: below, allowed⟩ k
      (spaced w.opening ++ after) (w.opening ++ left) := by
  have hspace : ∀ {text : List Char}, ∀ c ∈ (' ' :: text).head?, isIdentifierPart c = false :=
    Word.isIdentifierPart_of_space rfl
  have hkeyword : ∀ {k : Keyword} {allowed : Bool} {text : List Char},
      (Word.keyword k).IsRead allowed (' ' :: text) := Word.isRead_keyword _ hspace
  cases w with
  | block =>
    have hstep : (⟨.braceStatement :: below, allowed⟩ : ContextStack).step k .braceL false =
        ⟨.braceStatement :: .braceStatement :: below, true⟩ := by
      rcases hk with rfl | rfl | rfl | rfl <;> rfl
    rw [Wrapper.opening, spaced_cons]
    exact written_word hstep nofun nofun (isRead_mark (by simp))
      (more _ _ (.inr (.inr (.inr rfl))))
  | tryBlock =>
    have hstep : (⟨.braceStatement :: below, allowed⟩ : ContextStack).step k (.keyword .try) false =
        ⟨.braceStatement :: below, false⟩ := by
      rcases hk with rfl | rfl | rfl | rfl <;> rfl
    rw [Wrapper.opening, spaced_cons, spaced_cons]
    refine written_word hstep nofun nofun hkeyword ?_
    exact written_word rfl nofun nofun (isRead_mark (by simp))
      (more _ _ (.inr (.inr (.inr rfl))))
  | ifBody =>
    rw [Wrapper.opening, spaced_cons]
    refine written_keeping rfl nofun hkeyword fun _ => ?_
    exact written_head (.inl rfl) (more _ _ (.inr (.inr (.inl rfl))))
  | whileBody =>
    rw [Wrapper.opening, spaced_cons]
    refine written_keeping rfl nofun hkeyword fun _ => ?_
    exact written_head (.inr rfl) (more _ _ (.inr (.inr (.inl rfl))))
  | forBody =>
    rw [Wrapper.opening, spaced_cons, spaced_cons, spaced_cons, spaced_cons, spaced_cons]
    refine written_keeping rfl nofun hkeyword fun _ => ?_
    refine written_word rfl nofun nofun (isRead_mark (by simp)) ?_
    refine written_word rfl nofun nofun (isRead_mark (by simp)) ?_
    refine written_word rfl nofun nofun (isRead_mark (by simp)) ?_
    exact written_word rfl nofun nofun (isRead_mark (by simp))
      (more _ _ (.inr (.inr (.inl rfl))))
  | forEachBody keys =>
    rw [Wrapper.opening, spaced_cons, spaced_cons, spaced_cons, spaced_cons, spaced_cons,
      spaced_cons]
    refine written_keeping rfl nofun hkeyword fun _ => ?_
    refine written_word rfl nofun nofun (isRead_mark (by simp)) ?_
    refine written_keeping rfl nofun (Word.isRead_name isOrdinaryName_head.1 hspace) fun _ => ?_
    refine written_keeping (by cases keys <;> rfl) nofun isRead_link fun _ => ?_
    refine written_keeping rfl nofun hkeyword fun _ => ?_
    exact written_word rfl nofun nofun (isRead_mark (by simp))
      (more _ _ (.inr (.inr (.inl rfl))))
  | label n =>
    rw [Wrapper.opening, spaced_cons, spaced_cons]
    refine written_keeping rfl nofun (Word.isRead_name (ordinary n rfl) hspace) fun _ => ?_
    exact written_word rfl nofun nofun (isRead_mark (by simp)) (more _ _ (.inr (.inl rfl)))

/-- The text behind a statement is written in the words behind it. -/
theorem written_closing (w : Wrapper)
    (more : ∀ allowed k, TokenStream.Written ⟨.braceStatement :: below, allowed⟩ k after left) :
    TokenStream.Written ⟨contextsIn below w, allowed⟩ k
      (spaced w.closing ++ after) (w.closing ++ left) := by
  cases w with
  | block =>
    rw [Wrapper.closing, spaced_cons]
    exact written_word rfl nofun nofun (isRead_mark (by simp)) (more true .braceR)
  | tryBlock =>
    rw [Wrapper.closing, spaced_cons, spaced_cons, spaced_cons, spaced_cons]
    refine written_word rfl nofun nofun (isRead_mark (by simp)) ?_
    refine written_word rfl nofun nofun
      (Word.isRead_keyword _ (Word.isIdentifierPart_of_space rfl)) ?_
    refine written_word rfl nofun nofun (isRead_mark (by simp)) ?_
    exact written_word rfl nofun nofun (isRead_mark (by simp)) (more true .braceR)
  | _ => exact more allowed k

/-- The text is written in the words of the jump and its wrappers. -/
theorem written_words (hname : IsOrdinaryName name)
    (ordinary : ∀ n ∈ path.filterMap Wrapper.name?, IsOrdinaryName n) (hk : BeginsStatement k)
    (more : ∀ allowed k, TokenStream.Written ⟨.braceStatement :: below, allowed⟩ k after left) :
    TokenStream.Written ⟨.braceStatement :: below, allowed⟩ k
      (jump.text name path ++ after) (jump.words name path ++ left) := by
  have hspace : ∀ {text : List Char}, ∀ c ∈ (' ' :: text).head?, isIdentifierPart c = false :=
    Word.isIdentifierPart_of_space rfl
  unfold text
  induction path generalizing below allowed k after left with
  | nil =>
    rw [words, spaced_cons, spaced_cons, spaced_cons]
    have hjump : ∀ {allowed : Bool} {text : List Char},
        (Word.keyword jump.keyword).IsRead allowed (' ' :: text) := by
      cases jump <;> exact Word.isRead_keyword _ hspace
    refine written_keeping (by cases jump <;> rfl) nofun hjump fun _ => ?_
    refine written_keeping rfl nofun (Word.isRead_name hname hspace) fun _ => ?_
    exact written_word rfl nofun nofun (isRead_mark (by simp)) (more _ _)
  | cons w path ih =>
    rw [names_cons] at ordinary
    obtain ⟨hordinary, hothers⟩ := List.forall_mem_append.mp ordinary
    rw [words, spaced_append, spaced_append, List.append_assoc, List.append_assoc]
    refine written_opening w (fun n hn => hordinary n (Option.mem_toList.mpr hn)) hk
      fun allowed' k' hk' => ?_
    obtain ⟨below', hbelow⟩ : ∃ below', contextsIn below w = .braceStatement :: below' := by
      cases w <;> exact ⟨_, rfl⟩
    rw [hbelow]
    exact ih hothers hk' fun _ _ => hbelow ▸ written_closing w more

end Text

section Outcome

variable {d : Descent} {σ : Scope} {options : ParseOptions} (hd : Answers options d)
  {s : ParseState}

include hd

/-- Each wrapper leaves what is read to the statement in it. -/
theorem exists_wraps {w : Wrapper} (hσ : σ.inGenerator = false)
    (helse : kindAhead rest ≠ .keyword .else) (ordinary : ∀ n ∈ w.name?, IsOrdinaryName n)
    (fresh : ∀ n ∈ w.name?, ∀ l ∈ σ.labels, l.name ≠ some n)
    (hs : s.Before σ (jump.words name (w :: path) ++ rest)) :
    ∃ u, s.Follows u ∧ u.Before σ (jump.words name path ++ (w.closing ++ rest)) ∧
      Wraps d σ (w.label? path) (w.closing ++ rest) rest s u := by
  rw [words, List.append_assoc, List.append_assoc] at hs
  have hstop : ∀ u : ParseState, u.Before σ (jump.words name path ++ (w.closing ++ rest)) →
      u.kind ≠ .braceR ∧ u.kind ≠ .eof := by
    intro u hu
    rw [hu.kind_eq]
    exact kindAhead_words.2
  cases w with
  | block => exact wraps_block hd hs hstop
  | tryBlock => exact wraps_try hd hs hstop
  | ifBody => exact wraps_if hd hσ helse hs
  | whileBody => exact wraps_while hd hσ hs
  | forBody => exact wraps_for hd hs
  | forEachBody keys => exact wraps_forEach hd hσ keys hs
  | label n =>
    have hs' : s.Before σ (.name n :: .colon :: (jump.words name path ++ rest)) := hs
    obtain ⟨u, hfollows, hu, hwraps⟩ := wraps_label hd hσ (ordinary n rfl) hs' (fresh n rfl)
    rw [hu.kind_eq, kindAhead_words.1] at hwraps
    exact ⟨u, hfollows, hu, hwraps⟩

/-- A jump in its wrappers is read if it finds its label among those on the path and those in scope,
and refused if it does not. -/
theorem statement_outcome (hσ : σ.inGenerator = false)
    (ordinary : ∀ n ∈ path.filterMap Wrapper.name?, IsOrdinaryName n)
    (distinct : (path.filterMap Wrapper.name?).Nodup)
    (fresh : ∀ n ∈ path.filterMap Wrapper.name?, ∀ l ∈ σ.labels, l.name ≠ some n)
    (helse : kindAhead rest ≠ .keyword .else)
    (hs : s.Before σ (jump.words name path ++ rest)) (hline : s.stream.OnOneLine) :
    if (labels path σ.labels).any (isJumpTarget jump (some name)) = true then
      ∃ st t, d .statement s = .ok st t ∧ directive? st = none ∧ t.Before σ rest
    else ∃ place t, d .statement s = .error (.fault ⟨.jumpWithoutTarget jump, place⟩) t := by
  induction path generalizing σ s rest with
  | nil =>
    obtain ⟨t, ht, houtcome⟩ := jump_outcome hd hs hline
    change if σ.labels.any _ = true then _ else _
    split at houtcome
    · rw [if_pos ‹_›]
      obtain ⟨st, hst, hdirective⟩ := houtcome
      exact ⟨st, t, hst, hdirective, ht⟩
    · rw [if_neg ‹_›]
      exact ⟨s.place, t, houtcome⟩
  | cons w path ih =>
    rw [names_cons] at ordinary distinct fresh
    obtain ⟨hordinary, hordinary'⟩ := List.forall_mem_append.mp ordinary
    obtain ⟨hfresh, hfresh'⟩ := List.forall_mem_append.mp fresh
    obtain ⟨-, hdistinct, hapart⟩ := List.nodup_append.mp distinct
    obtain ⟨u, hfollows, hu, more, hrun, hmore⟩ := exists_wraps hd hσ helse
      (fun n hn => hordinary n (Option.mem_toList.mpr hn))
      (fun n hn => hfresh n (Option.mem_toList.mpr hn)) hs
    obtain ⟨v, hstream, hv, hrefuses, haccepts⟩ := exists_within (w.label? path) (d .statement) hu
    have hinside : ∀ n ∈ path.filterMap Wrapper.name?, ∀ l ∈ (inside (w.label? path) σ).labels,
        l.name ≠ some n := by
      intro n hn
      refine List.forall_mem_append.mpr ⟨fun l hl hname => ?_, hfresh' n hn⟩
      have hhead : n ∈ w.name? := name_of_mem_label? (Option.mem_toList.mp hl) ▸ hname
      exact hapart n (Option.mem_toList.mpr hhead) n hn rfl
    have hgenerator : (inside (w.label? path) σ).inGenerator = false := hσ
    have helse' : kindAhead (w.closing ++ rest) ≠ .keyword .else := by
      cases w <;> first | exact helse | nofun
    have houtcome := ih hgenerator hordinary' hdistinct hinside helse' hv
      (hstream ▸ fun t ht => hline t (hfollows.trans ht))
    rw [labels]
    change if (labels path (inside (w.label? path) σ).labels).any _ = true then _ else _
    split at houtcome
    · rw [if_pos ‹_›]
      obtain ⟨body, t, hbody, -, ht⟩ := houtcome
      obtain ⟨t', hwithin, ht'⟩ := haccepts body t _ hbody ht
      obtain ⟨st, t'', hst, hdirective, hrest⟩ := hmore body t' ht'
      exact ⟨st, t'', by rw [hrun, bind_of_ok hwithin, hst], hdirective, hrest⟩
    · rw [if_neg ‹_›]
      obtain ⟨place, t, hbody⟩ := houtcome
      obtain ⟨t', hwithin⟩ := hrefuses _ t hbody
      exact ⟨place, t', by rw [hrun, bind_of_error hwithin]⟩

end Outcome

/-- A text of one jump in its wrappers is a program exactly if the jump reaches its label. -/
theorem parse_text (options : ParseOptions) (hname : IsOrdinaryName name)
    (ordinary : ∀ n ∈ path.filterMap Wrapper.name?, IsOrdinaryName n)
    (distinct : (path.filterMap Wrapper.name?).Nodup) :
    (jump.Reaches name path → ∃ file, (parse options (jump.text name path)).result = .ok file) ∧
      (¬jump.Reaches name path → ∃ place, (parse options (jump.text name path)).result =
        .error (.fault ⟨.jumpWithoutTarget jump, place⟩)) := by
  have hwritten : TokenStream.Written .initial .eof (jump.text name path ++ [])
      (jump.words name path ++ []) :=
    written_words hname ordinary (.inl rfl) fun _ _ => .done
  rw [List.append_nil, List.append_nil] at hwritten
  obtain ⟨stream, hread, hshows, hline⟩ := TokenStream.exists_shows_of_text hwritten
  let s : ParseState := { ParseState.ofText options (jump.text name path) with stream := stream }
  have hbegins : Begins options (jump.text name path) s := ⟨stream, hread, rfl⟩
  have hs : s.Before s.scope (jump.words name path ++ []) :=
    ⟨(List.append_nil _).symm ▸ hshows, (List.append_nil _).symm ▸ not_arrow_of_mem_words, rfl⟩
  have hk : s.kind ≠ .eof := hs.kind_eq ▸ kindAhead_words.2.2
  have hd : Answers options (descend options) := answers_descend
  have houtcome := statement_outcome hd rfl ordinary distinct
    (fun _ _ _ hl => absurd hl List.not_mem_nil) (by decide) hs hline
  have hreach : (labels path s.scope.labels).any (isJumpTarget jump (some name)) = true ↔
      jump.Reaches name path := by
    rw [any_labels_iff]
    exact or_iff_left Bool.false_ne_true
  refine ⟨fun h => ?_, fun h => ?_⟩
  · rw [if_pos (hreach.mpr h)] at houtcome
    obtain ⟨st, t, hst, hdirective, ht⟩ := houtcome
    obtain ⟨file, hfile, -⟩ := parse_of_statement hbegins hk hst hdirective ht.kind_eq
    exact ⟨file, hfile⟩
  · rw [if_neg (mt hreach.mp h)] at houtcome
    obtain ⟨place, t, hst⟩ := houtcome
    exact ⟨place, parse_of_refused hbegins hk hst⟩

/-- Labels before a loop, with wrappers of any kind around them and in the loop: `break` may name
each of the labels, `continue` only the last. -/
theorem parse_jump_of_chain (options : ParseOptions) {outer inner : List Wrapper}
    {names : List String} {loop : Wrapper} (hloop : loop.isLoop = true) {name : String}
    (h : name ∈ names) {path : List Wrapper}
    (hpath : path = outer ++ names.map .label ++ loop :: inner)
    (ordinary : ∀ n ∈ path.filterMap Wrapper.name?, IsOrdinaryName n)
    (distinct : (path.filterMap Wrapper.name?).Nodup) :
    (∃ file, (parse options (Jump.break.text name path)).result = .ok file) ∧
      ((∃ file, (parse options (Jump.continue.text name path)).result = .ok file) ↔
        names.getLast? = some name) := by
  obtain ⟨before, behind, rfl⟩ := List.append_of_mem h
  have hsplit : path = (outer ++ before.map .label) ++
      .label name :: (behind.map .label ++ loop :: inner) := by
    simp [hpath]
  have hname : IsOrdinaryName name := by
    refine ordinary name (List.mem_filterMap.mpr ⟨.label name, ?_, rfl⟩)
    rw [hsplit]
    exact List.mem_append_right _ (List.mem_cons_self ..)
  have hbreak : Jump.break.Reaches name path := by
    rw [hsplit]
    exact List.mem_append_right _ (List.mem_cons_self ..)
  refine ⟨(parse_text options hname ordinary distinct).1 hbreak, ?_⟩
  -- The label stands on the path only once.
  have honce : Wrapper.label name ∉ outer ++ before.map .label ∧
      Wrapper.label name ∉ behind.map .label ++ loop :: inner := by
    have hselected : (Wrapper.label name).name? = some name := rfl
    have hnames := distinct
    rw [hsplit, List.filterMap_append, List.filterMap_cons_some hselected] at hnames
    obtain ⟨-, hbehind, hapart⟩ := List.nodup_append.mp hnames
    refine ⟨fun hmem => ?_, fun hmem => ?_⟩
    · exact hapart name (List.mem_filterMap.mpr ⟨_, hmem, rfl⟩) name (List.mem_cons_self ..) rfl
    · exact (List.nodup_cons.mp hbehind).1 (List.mem_filterMap.mpr ⟨_, hmem, rfl⟩)
  have hcontinue : Jump.continue.Reaches name path ↔ behind = [] := by
    constructor
    · rintro ⟨outer', next, inner', hpath', hnext⟩
      rw [hsplit, List.append_cons_inj_of_notMem honce.1 honce.2] at hpath'
      obtain ⟨-, -, hrest⟩ := hpath'
      cases behind with
      | nil => rfl
      | cons second behind =>
        obtain ⟨rfl, -⟩ := List.cons.inj hrest
        cases hnext
    · rintro rfl
      exact ⟨outer ++ before.map .label, loop, inner, hsplit, hloop⟩
  have hlast : (before ++ name :: behind).getLast? = some name ↔ behind = [] := by
    rw [List.getLast?_append_of_ne_nil _ (List.cons_ne_nil _ _), List.getLast?_cons]
    constructor
    · intro hname
      cases hlast : behind.getLast? with
      | none => exact List.getLast?_eq_none_iff.mp hlast
      | some last =>
        rw [hlast] at hname
        obtain rfl : last = name := Option.some.inj hname
        have hmem : Wrapper.label last ∈ behind.map Wrapper.label :=
          List.mem_map_of_mem (List.mem_of_getLast? hlast)
        exact absurd (List.mem_append_left _ hmem) honce.2
    · rintro rfl
      rfl
  rw [hlast, ← hcontinue]
  have houtcome : (Jump.continue.Reaches name path →
      ∃ file, (parse options (Jump.continue.text name path)).result = .ok file) ∧
        (¬Jump.continue.Reaches name path → ∃ place,
          (parse options (Jump.continue.text name path)).result =
            .error (.fault ⟨.jumpWithoutTarget .continue, place⟩)) :=
    parse_text options hname ordinary distinct
  obtain ⟨hreaches, hmisses⟩ := houtcome
  refine ⟨fun ⟨file, hfile⟩ => ?_, hreaches⟩
  by_contra hmiss
  obtain ⟨place, herror⟩ := hmisses hmiss
  cases hfile.symm.trans herror

theorem isOrdinaryName_of_mem : ∀ n ∈ ["a", "b"], IsOrdinaryName n := by
  simp only [List.forall_mem_cons, List.not_mem_nil, false_implies, implies_true, and_true]
  exact ⟨⟨⟨_, [], rfl, by decide, fun _ h => absurd h List.not_mem_nil⟩,
      by decide, by decide, by decide⟩,
    ⟨⟨_, [], rfl, by decide, fun _ h => absurd h List.not_mem_nil⟩,
      by decide, by decide, by decide⟩⟩

/-- Of two labels before a loop the first may be left, but not gone on with. -/
theorem parse_jump_of_chain_two :
    (∃ file, (parse {}
        "\x7b a : b : while ( this ) \x7b break a ; \x7d \x7d ".toList).result = .ok file) ∧
      ¬∃ file, (parse {}
        "\x7b a : b : while ( this ) \x7b continue a ; \x7d \x7d ".toList).result = .ok file := by
  let path : List Wrapper := [.block, .label "a", .label "b", .whileBody, .block]
  have hnames : path.filterMap Wrapper.name? = ["a", "b"] := rfl
  have hchain : path = [.block] ++ ["a", "b"].map .label ++ .whileBody :: [.block] := rfl
  have hbreak : Jump.break.text "a" path =
      "\x7b a : b : while ( this ) \x7b break a ; \x7d \x7d ".toList := by decide
  have hcontinue : Jump.continue.text "a" path =
      "\x7b a : b : while ( this ) \x7b continue a ; \x7d \x7d ".toList := by decide
  have hparse := parse_jump_of_chain {} (by rfl) (List.mem_cons_self ..) hchain
    (hnames ▸ isOrdinaryName_of_mem) (hnames ▸ by decide)
  rw [hbreak, hcontinue] at hparse
  exact ⟨hparse.1, mt hparse.2.mp (by decide)⟩

end Jump

end EcmaTree
