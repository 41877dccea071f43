import EcmaTree.Proofs.Token.Operators

/-!
# Texts of operands

A text spells words as an operand if it is written in them wherever an operand may stand, in front
of all that can follow an operand. It leaves the contexts as they were, and behind it no expression
may begin, so that a slash is an operator there. Such texts are put together from smaller ones, one
lemma for each way in which an expression is written with others in it.
-/

namespace EcmaTree

open TokenStream

namespace TokenKind

/-- A token that ends an operand and is no closing parenthesis. -/
def endsOperand : TokenKind → Bool
  | .name | .num | .bracketR | .keyword .this => true
  | _ => false

end TokenKind

/-- Contexts in which blanks are skipped, with a bottom that no closing token takes away. -/
structure Grounded (stack : List Context) : Prop where
  ne_nil : stack ≠ []
  outside : stack.headD .braceStatement ≠ .quoteTemplate

/-- The text does not go on with a name or, unless `point`, with a number. -/
def Separates (point : Bool) (text : List Char) : Prop :=
  ∀ c ∈ text.head?, isIdentifierPart c = false ∧ (point = false → c ≠ '.')

/-- The text is written in the words wherever an operand may stand. If `point`, a point may come
behind it. -/
def Spells (point : Bool) (text : List Char) (words : List Word) : Prop :=
  ∀ stack allowed k after left, Grounded stack → TokenKind.isQuiet k = true →
    Separates point after →
    (∀ k', k'.isQuiet = true → Written ⟨stack, false⟩ k' after left) →
    Written ⟨stack, allowed⟩ k (text ++ after) (words ++ left)

namespace ContextStack

variable {stack : List Context} {allowed : Bool} {previous k : TokenKind}

theorem step_of_keepsStack (h : k.keepsStack = true) :
    ∃ allowed', (⟨stack, allowed⟩ : ContextStack).step previous k false = ⟨stack, allowed'⟩ := by
  unfold step
  split
  · exact ⟨false, rfl⟩
  · split <;> first | exact ⟨_, rfl⟩ | cases h

theorem step_of_endsOperand (h : k.endsOperand = true) :
    (⟨stack, allowed⟩ : ContextStack).step previous k false = ⟨stack, false⟩ := by
  unfold step
  split
  · rfl
  · unfold TokenKind.endsOperand at h
    split at h <;> first | rfl | cases h

theorem step_parenL (hk : previous.isQuiet = true) :
    (⟨stack, allowed⟩ : ContextStack).step previous .parenL false =
      ⟨.parenExpression :: stack, true⟩ := by
  unfold step
  split
  · rename_i h
    cases (Bool.and_eq_true_iff.mp h).1
  · dsimp only
    split <;> first | rfl | cases hk

theorem step_parenR (hs : stack ≠ []) :
    (⟨.parenExpression :: stack, allowed⟩ : ContextStack).step previous .parenR false =
      ⟨stack, false⟩ := by
  obtain ⟨bottom, more, rfl⟩ := List.exists_cons_of_ne_nil hs
  unfold step
  split
  · rename_i h
    cases (Bool.and_eq_true_iff.mp h).1
  · rfl

end ContextStack

namespace TokenStream.Written

variable {stack : List Context} {allowed : Bool} {k : TokenKind} {w : Word} {text : List Char}
  {words : List Word}

theorem spaced (hs : Grounded stack) (h : Written ⟨stack, allowed⟩ k text words) :
    Written ⟨stack, allowed⟩ k (' ' :: text) words :=
  .space hs.outside h

/-- A word that leaves open whether an expression begins behind it. -/
theorem joiner (hs : Grounded stack) (hkeeps : w.kind.keepsStack = true)
    (hread : w.IsRead allowed text)
    (more : ∀ allowed', Written ⟨stack, allowed'⟩ w.kind text words) :
    Written ⟨stack, allowed⟩ k (w.text ++ text) (w :: words) := by
  obtain ⟨allowed', hstep⟩ :
      ∃ allowed', (⟨stack, allowed⟩ : ContextStack).step k w.kind false = ⟨stack, allowed'⟩ :=
    ContextStack.step_of_keepsStack hkeeps
  exact .word hs.outside hread (hstep ▸ more allowed')

/-- A word with which an operand ends. -/
theorem ender (hs : Grounded stack) (hends : w.kind.endsOperand = true)
    (hread : w.IsRead allowed text) (more : Written ⟨stack, false⟩ w.kind text words) :
    Written ⟨stack, allowed⟩ k (w.text ++ text) (w :: words) :=
  .word hs.outside hread (ContextStack.step_of_endsOperand hends ▸ more)

theorem parenL (hs : Grounded stack) (hk : k.isQuiet = true)
    (more : Written ⟨.parenExpression :: stack, true⟩ .parenL text words) :
    Written ⟨stack, allowed⟩ k ('(' :: text) (.parenL :: words) := by
  have hread : Word.parenL.IsRead allowed text :=
    Word.isRead_closed (by decide) (by decide) (by decide) (by decide)
  exact .word (w := .parenL) hs.outside hread (ContextStack.step_parenL hk ▸ more)

theorem parenR (hs : Grounded stack) (more : Written ⟨stack, false⟩ .parenR text words) :
    Written ⟨.parenExpression :: stack, allowed⟩ k (')' :: text) (.parenR :: words) := by
  have hread : Word.parenR.IsRead allowed text :=
    Word.isRead_closed (by decide) (by decide) (by decide) (by decide)
  exact .word (w := .parenR) nofun hread (ContextStack.step_parenR hs.ne_nil ▸ more)

end TokenStream.Written

/-! ### Lists -/

/-- Lists of words with a comma before each of them. -/
def commaBefore (lists : List (List Word)) : List Word :=
  lists.flatMap (.comma :: ·)

/-- Lists of words with a comma between them. -/
def commaBetween : List (List Word) → List Word
  | [] => []
  | words :: lists => words ++ commaBefore lists

theorem eq_comma_or_of_mem_commaBetween {lists : List (List Word)} {w : Word}
    (h : w ∈ commaBetween lists) : w = .comma ∨ ∃ words ∈ lists, w ∈ words := by
  cases lists with
  | nil => cases h
  | cons words lists =>
    simp only [commaBetween, commaBefore, List.mem_append, List.mem_flatMap, List.mem_cons] at h
    rcases h with h | ⟨more, hmore, rfl | h⟩
    · exact .inr ⟨words, List.mem_cons_self .., h⟩
    · exact .inl rfl
    · exact .inr ⟨more, List.mem_cons_of_mem _ hmore, h⟩

/-- Texts with a comma and a space between them. -/
def spacedBetween : List (List Char) → List Char
  | [] => []
  | text :: texts => text ++ texts.flatMap (',' :: ' ' :: ·)

section Phrases

variable {point : Bool} {text left right : List Char} {words leftWords rightWords : List Word}
  {w : Word} {items : List (List Char × List Word)}

theorem Separates.mono {text : List Char} (h : Separates false text) (point : Bool) :
    Separates point text :=
  fun c hc => ⟨(h c hc).1, fun _ => (h c hc).2 rfl⟩

theorem Spells.weaken (h : Spells point text words) : Spells false text words :=
  fun stack allowed k after left hs hk hafter more =>
    h stack allowed k after left hs hk (hafter.mono point) more

/-- The stream at the start of the text shows the words. -/
theorem Spells.exists_shows (h : Spells point text words) :
    ∃ s, read (ofText text) = .ok () s ∧ s.Shows words := by
  have hwritten := h [.braceStatement] true .eof [] [] ⟨nofun, nofun⟩ rfl nofun fun _ _ => .done
  rw [List.append_nil, List.append_nil] at hwritten
  obtain ⟨s, hread, hshows, -⟩ := exists_shows_of_text hwritten
  exact ⟨s, hread, hshows⟩

/-- Items with commas before them, behind another one. -/
theorem written_commaBefore (each : ∀ i ∈ items, Spells false i.1 i.2) {stack : List Context}
    (hs : Grounded stack) {after : List Char} {left : List Word} (hafter : Separates false after)
    (more : ∀ k, k.isQuiet = true → Written ⟨stack, false⟩ k after left) :
    Separates false ((items.map Prod.fst).flatMap (',' :: ' ' :: ·) ++ after) ∧
      ∀ k, k.isQuiet = true → Written ⟨stack, false⟩ k
        ((items.map Prod.fst).flatMap (',' :: ' ' :: ·) ++ after)
        (commaBefore (items.map Prod.snd) ++ left) := by
  induction items with
  | nil => exact ⟨hafter, more⟩
  | cons i items ih =>
    obtain ⟨hi, each⟩ := List.forall_mem_cons.mp each
    obtain ⟨hseparates, hmore⟩ := ih each
    refine ⟨fun c hc => ?_, fun k hk => ?_⟩
    · obtain rfl : ',' = c := by simpa using hc
      decide
    · have hcomma : ∀ following, Word.comma.IsRead false following := fun following =>
        Word.isRead_closed (by decide) (by decide) (by decide) (by decide)
      have hitem : ∀ allowed, Written ⟨stack, allowed⟩ .comma
          (' ' :: (i.1 ++ ((items.map Prod.fst).flatMap (',' :: ' ' :: ·) ++ after)))
          (i.2 ++ (commaBefore (items.map Prod.snd) ++ left)) := fun allowed =>
        .spaced hs (hi stack allowed .comma _ _ hs rfl hseparates hmore)
      have hlist := Written.joiner (k := k) hs (w := .comma) rfl (hcomma _) hitem
      simp only [List.map_cons, List.flatMap_cons, commaBefore, List.cons_append,
        List.append_assoc] at hlist ⊢
      exact hlist

/-- A list that is not empty is written as an operand. -/
theorem spells_list (hne : items ≠ []) (each : ∀ i ∈ items, Spells false i.1 i.2) :
    Spells false (spacedBetween (items.map Prod.fst)) (commaBetween (items.map Prod.snd)) := by
  intro stack allowed k after left hs hk hafter more
  obtain ⟨i, items, rfl⟩ := List.exists_cons_of_ne_nil hne
  obtain ⟨hi, each⟩ := List.forall_mem_cons.mp each
  obtain ⟨hseparates, hmore⟩ := written_commaBefore each hs hafter more
  rw [List.map_cons, List.map_cons, spacedBetween, commaBetween, List.append_assoc,
    List.append_assoc]
  exact hi stack allowed k _ _ hs hk hseparates hmore

/-- The text of a list up to a text that ends it, also where the list is empty. -/
theorem written_list (each : ∀ i ∈ items, Spells false i.1 i.2) {stack : List Context}
    (hs : Grounded stack) {after : List Char} {left : List Word} (hafter : Separates false after)
    (more : ∀ allowed k, k.isQuiet = true → Written ⟨stack, allowed⟩ k after left)
    {allowed : Bool} {k : TokenKind} (hk : k.isQuiet = true) :
    Written ⟨stack, allowed⟩ k (spacedBetween (items.map Prod.fst) ++ after)
      (commaBetween (items.map Prod.snd) ++ left) := by
  by_cases hne : items = []
  · subst hne
    exact more allowed k hk
  · exact spells_list hne each stack allowed k after left hs hk hafter (more false)

/-! ### Operands of one word -/

/-- A word that is read in front of all that can follow an operand. -/
theorem spells_word (hends : w.kind.endsOperand = true) (hquiet : w.kind.isQuiet = true)
    (hread : ∀ allowed after, Separates point after → w.IsRead allowed after) :
    Spells point w.text [w] :=
  fun _ allowed _ after _ hs _ hafter more =>
    .ender hs hends (hread allowed after hafter) (more _ hquiet)

theorem spells_name {n : String} (hn : IsOrdinaryName n) : Spells true n.toList [.name n] :=
  spells_word (w := .name n) rfl rfl fun _ _ hafter =>
    Word.isRead_name hn fun c hc => (hafter c hc).1

theorem spells_this : Spells true "this".toList [.keyword .this] :=
  spells_word (w := .keyword .this) rfl rfl fun _ _ hafter =>
    Word.isRead_keyword .this fun c hc => (hafter c hc).1

theorem spells_integer {raw : String} (hne : raw.toList ≠ [])
    (hdigits : ∀ c ∈ raw.toList, isDecimalDigit c = true) :
    Spells false raw.toList [.integer raw] :=
  spells_word (w := .integer raw) rfl rfl fun _ _ hafter =>
    Word.isRead_integer hne hdigits fun c hc => ⟨(hafter c hc).1, (hafter c hc).2 rfl⟩

/-! ### Operators -/

/-- An operator with spaces on both sides between two operands. -/
theorem spells_between (hleft : Spells point left leftWords) {point' : Bool}
    (hright : Spells point' right rightWords) (hkeeps : w.kind.keepsStack = true)
    (hquiet : w.kind.isQuiet = true)
    (hread : ∀ following : List Char, following.head? = some ' ' → w.IsRead false following) :
    Spells point' (left ++ ' ' :: (w.text ++ ' ' :: right)) (leftWords ++ w :: rightWords) := by
  intro stack allowed k after more hs hk hafter hmore
  have hspace : ∀ text : List Char, Separates point (' ' :: text) := by
    intro text c hc
    obtain rfl : ' ' = c := Option.some.inj hc
    exact ⟨by decide, fun _ => by decide⟩
  have hbehind : ∀ k', Written ⟨stack, false⟩ k' (' ' :: (w.text ++ ' ' :: (right ++ after)))
      (w :: (rightWords ++ more)) := fun k' =>
    .spaced hs (.joiner hs hkeeps (hread _ rfl) fun allowed' =>
      .spaced hs (hright stack allowed' _ after more hs hquiet hafter hmore))
  simpa using hleft stack allowed k _ _ hs hk (hspace _) fun k' _ => hbehind k'

/-- An operator right before its operand. -/
theorem spells_before (h : Spells point text words) (hkeeps : w.kind.keepsStack = true)
    (hquiet : w.kind.isQuiet = true)
    (hread : ∀ allowed after, w.IsRead allowed (text ++ after)) :
    Spells point (w.text ++ text) (w :: words) := by
  intro stack allowed k after more hs hk hafter hmore
  rw [List.append_assoc]
  exact .joiner hs hkeeps (hread _ _) fun allowed' =>
    h stack allowed' _ after more hs hquiet hafter hmore

/-- An operator before its operand, with a space. -/
theorem spells_before_space (h : Spells point text words) (hkeeps : w.kind.keepsStack = true)
    (hquiet : w.kind.isQuiet = true)
    (hread : ∀ allowed following, List.head? following = some ' ' → w.IsRead allowed following) :
    Spells point (w.text ++ ' ' :: text) (w :: words) := by
  intro stack allowed k after more hs hk hafter hmore
  rw [List.append_assoc]
  exact .joiner hs hkeeps (hread _ _ rfl) fun allowed' =>
    .spaced hs (h stack allowed' _ after more hs hquiet hafter hmore)

/-- `++` or `--` right behind its operand. -/
theorem spells_trailing (h : Spells point text words) (operator : UpdateOperator) :
    Spells true (text ++ operator.word.text) (words ++ [operator.word]) := by
  intro stack allowed k after more hs hk hafter hmore
  have hsign : Separates point (operator.word.text ++ after) := by
    cases operator <;>
      (intro c hc; obtain rfl := Option.some.inj hc; exact ⟨by decide, fun _ => by decide⟩)
  rw [List.append_assoc, List.append_assoc]
  refine h stack allowed k _ _ hs hk hsign fun k' hk' => ?_
  have hstep : ContextStack.step ⟨stack, false⟩ k' operator.word.kind false = ⟨stack, false⟩ := rfl
  exact .word hs.outside (Word.isRead_update operator) (hstep ▸ hmore _ rfl)

/-! ### Brackets and members -/

theorem grounded_parenthesis (stack : List Context) : Grounded (.parenExpression :: stack) :=
  ⟨nofun, nofun⟩

theorem separates_bracket {c : Char} (h : c = '(' ∨ c = ')' ∨ c = '[' ∨ c = ']')
    (text : List Char) : Separates point (c :: text) := by
  intro c' hc
  obtain rfl := Option.some.inj hc
  rcases h with rfl | rfl | rfl | rfl <;> exact ⟨by decide, fun _ => by decide⟩

theorem spells_parentheses (h : Spells point text words) :
    Spells true ('(' :: (text ++ [')'])) (.parenL :: (words ++ [.parenR])) := by
  intro stack allowed k after more hs hk hafter hmore
  simp only [List.append_assoc, List.cons_append]
  exact .parenL hs hk (h _ _ _ _ _ (grounded_parenthesis stack) rfl
    (separates_bracket (by decide) _) fun k' _ => .parenR hs (hmore _ rfl))

/-- Arguments behind a callee. -/
theorem spells_call (h : Spells point text words) (each : ∀ i ∈ items, Spells false i.1 i.2) :
    Spells true (text ++ '(' :: (spacedBetween (items.map Prod.fst) ++ [')']))
      (words ++ .parenL :: (commaBetween (items.map Prod.snd) ++ [.parenR])) := by
  intro stack allowed k after more hs hk hafter hmore
  simp only [List.append_assoc, List.cons_append]
  refine h stack allowed k _ _ hs hk (separates_bracket (by decide) _) fun k' hk' => ?_
  exact .parenL hs hk' (written_list each (grounded_parenthesis stack)
    (separates_bracket (by decide) _) (fun _ _ _ => .parenR hs (hmore _ rfl)) rfl)

/-- Square brackets leave the contexts as they are. -/
theorem written_brackets {stack : List Context} (hs : Grounded stack) {after : List Char}
    {more : List Word} (hmore : ∀ k, k.isQuiet = true → Written ⟨stack, false⟩ k after more)
    (hinner : ∀ allowed, (∀ allowed k, Written ⟨stack, allowed⟩ k (']' :: after)
        (.bracketR :: more)) →
      Written ⟨stack, allowed⟩ .bracketL (text ++ ']' :: after) (words ++ .bracketR :: more))
    {allowed : Bool} {k : TokenKind} :
    Written ⟨stack, allowed⟩ k ('[' :: (text ++ ']' :: after))
      (.bracketL :: (words ++ .bracketR :: more)) := by
  have hopening : ∀ following, Word.bracketL.IsRead allowed following := fun _ =>
    Word.isRead_closed (by decide) (by decide) (by decide) (by decide)
  refine .joiner hs (w := .bracketL) rfl (hopening _) fun allowed' => hinner allowed' fun _ _ => ?_
  exact .ender hs (w := .bracketR) rfl
    (Word.isRead_closed (by decide) (by decide) (by decide) (by decide)) (hmore _ rfl)

theorem spells_array (each : ∀ i ∈ items, Spells false i.1 i.2) :
    Spells true ('[' :: (spacedBetween (items.map Prod.fst) ++ [']']))
      (.bracketL :: (commaBetween (items.map Prod.snd) ++ [.bracketR])) := by
  intro stack allowed k after more hs hk hafter hmore
  simp only [List.append_assoc, List.cons_append]
  exact written_brackets hs hmore fun allowed' hclosing =>
    written_list each hs (separates_bracket (by decide) _) (fun _ _ _ => hclosing _ _) rfl

/-- A member by an expression in brackets. -/
theorem spells_bracket (h : Spells point text words) {property : List Char}
    {propertyWords : List Word} {point' : Bool} (hproperty : Spells point' property propertyWords) :
    Spells true (text ++ '[' :: (property ++ [']']))
      (words ++ .bracketL :: (propertyWords ++ [.bracketR])) := by
  intro stack allowed k after more hs hk hafter hmore
  simp only [List.append_assoc, List.cons_append]
  refine h stack allowed k _ _ hs hk (separates_bracket (by decide) _) fun k' hk' => ?_
  exact written_brackets hs hmore fun allowed' hclosing =>
    hproperty stack allowed' _ _ _ hs rfl (separates_bracket (by decide) _) fun _ _ =>
      hclosing _ _

/-- A member by its name. -/
theorem spells_dot (h : Spells true text words) {n : String} (hn : IsOrdinaryName n) :
    Spells true (text ++ '.' :: n.toList) (words ++ [.dot, .name n]) := by
  intro stack allowed k after more hs hk hafter hmore
  simp only [List.append_assoc, List.cons_append]
  have hpoint : Separates true ('.' :: (n.toList ++ after)) := by
    intro c hc
    obtain rfl := Option.some.inj hc
    decide
  have hdot : Word.dot.IsRead false (n.toList ++ after) := by
    obtain ⟨c, letters, htext, hstart, -⟩ := hn.letters
    have hc : ∀ c' ∈ (n.toList ++ after).head?, isIdentifierStart c' = true := by
      intro c' hc'
      rw [htext] at hc'
      obtain rfl := Option.some.inj hc'
      exact hstart
    refine Word.isRead_punctuator (by decide) (fun c' hc' hgoes => ?_) (by decide) nofun
      fun _ c' hc' => ?_
    · obtain rfl : c' = '.' := List.mem_singleton.mp hgoes
      exact absurd (hc '.' hc') (by decide)
    · exact Bool.eq_false_iff.mpr fun hdigit =>
        Bool.eq_false_iff.mp (isIdentifierStart_of_digit hdigit) (hc c' hc')
  refine h stack allowed k _ _ hs hk hpoint fun k' _ => ?_
  refine .joiner hs (w := .dot) rfl hdot fun allowed' => ?_
  exact .ender hs (w := .name n) rfl (Word.isRead_name hn fun c hc => (hafter c hc).1) (hmore _ rfl)

end Phrases

end EcmaTree
