import EcmaTree.Proofs.Grammar.Phrase.Primary
import Mathlib.Data.List.Induction

/-!
# Precedence climbing

A chain is a list of names with operators between them. Of all trees with the chain as their
in-order traversal there is one in which every operator has tighter operators below it, where
operators of the same strength group to the left and the exponent operator to the right. Reading
the chain gives this tree. Where `in` is no operator, it gives the tree of what stands before the
first `in`, and stops there.
-/

namespace EcmaTree

open EcmaTree.Parser EcmaTree.Grammar EcmaTree.Reading

/-- Names with operators between them. -/
structure Chain where
  first : String
  others : List (InfixOperator × String)
deriving DecidableEq, Repr

/-- Operators applied to names. -/
inductive OperatorTree where
  | operand (name : String)
  | join (operator : InfixOperator) (left right : OperatorTree)
deriving DecidableEq, Repr

/-- The words of operators and the names behind them. -/
def operatorWords (others : List (InfixOperator × String)) : List Word :=
  others.flatMap fun i => [i.1.word, .name i.2]

namespace Chain

def words (c : Chain) : List Word :=
  .name c.first :: operatorWords c.others

/-- The text with a space on both sides of each operator. -/
def text (c : Chain) : List Char :=
  c.first.toList ++
    c.others.flatMap fun i => ' ' :: (i.1.spelling.toList ++ ' ' :: i.2.toList)

def IsOrdinary (c : Chain) : Prop :=
  ∀ n ∈ c.first :: c.others.map Prod.snd, IsOrdinaryName n

/-- Whether the operator ends a chain. -/
def isEnd (noIn : Bool) (operator : InfixOperator) : Bool :=
  noIn && operator == .binary .in

/-- The operators and names that are read: all of them, or those before the first `in`. -/
def taken (noIn : Bool) (c : Chain) : Chain :=
  ⟨c.first, c.others.takeWhile fun i => !isEnd noIn i.1⟩

/-- The words that are left. -/
def wordsLeft (noIn : Bool) (c : Chain) : List Word :=
  operatorWords (c.others.dropWhile fun i => !isEnd noIn i.1)

theorem words_eq (noIn : Bool) (c : Chain) :
    c.words = (c.taken noIn).words ++ c.wordsLeft noIn := by
  unfold words taken wordsLeft
  rw [List.cons_append, operatorWords, operatorWords, operatorWords, ← List.flatMap_append,
    List.takeWhile_append_dropWhile]

/-- What is left is nothing, or begins with an operator that ends the chain. -/
theorem kindAhead_wordsLeft (noIn : Bool) (c : Chain) :
    kindAhead (c.wordsLeft noIn) = .eof ∨
      (noIn = true ∧ kindAhead (c.wordsLeft noIn) = .keyword .in) := by
  cases hleft : c.others.dropWhile (fun i => !isEnd noIn i.1) with
  | nil =>
    rw [wordsLeft, hleft]
    exact .inl rfl
  | cons i left =>
    have hend : isEnd noIn i.1 = true := by
      have h :=
        List.head?_dropWhile_not (fun i : InfixOperator × String => !isEnd noIn i.1) c.others
      rw [hleft] at h
      simpa using h
    obtain ⟨hno, hin⟩ := Bool.and_eq_true_iff.mp hend
    rw [wordsLeft, hleft, operatorWords, List.flatMap_cons, eq_of_beq hin]
    exact .inr ⟨hno, rfl⟩

theorem closes_wordsLeft (noIn : Bool) (c : Chain) :
    (kindAhead (c.wordsLeft noIn)).Closes noIn := by
  rcases c.kindAhead_wordsLeft noIn with h | ⟨hno, h⟩ <;> rw [h]
  · exact TokenKind.closes_of_none rfl rfl rfl rfl
  · exact ⟨⟨rfl, fun _ _ => .inr ⟨hno, rfl⟩⟩, by decide, rfl⟩

theorem isEnd_of_mem_taken {noIn : Bool} {c : Chain} :
    ∀ i ∈ (c.taken noIn).others, isEnd noIn i.1 = false := by
  intro i hi
  simpa using List.all_eq_true.mp List.all_takeWhile i hi

theorem not_arrow_of_mem_words (c : Chain) : ∀ w ∈ c.words, w.kind ≠ .arrow := by
  refine List.forall_mem_cons.mpr ⟨nofun, fun w hw => ?_⟩
  obtain ⟨i, -, hi⟩ := List.mem_flatMap.mp hw
  simp only [List.mem_cons, List.not_mem_nil, or_false] at hi
  rcases hi with rfl | rfl
  · exact i.1.kind_ne_arrow
  · nofun

/-- The text is written in the words. -/
theorem spells_text {c : Chain} (h : c.IsOrdinary) : Spells true c.text c.words := by
  obtain ⟨first, others⟩ := c
  obtain ⟨hfirst, hothers⟩ := List.forall_mem_cons.mp h
  induction others using List.reverseRecOn with
  | nil => simpa [text, words, operatorWords] using spells_name hfirst
  | append_singleton others i ih =>
    rw [List.map_append] at hothers
    obtain ⟨hinit, hlast⟩ := List.forall_mem_append.mp hothers
    have hinit := ih (List.forall_mem_cons.mpr ⟨hfirst, hinit⟩) hfirst hinit
    have hname : Spells true i.2.toList [.name i.2] :=
      spells_name (hlast i.2 (List.mem_singleton.mpr rfl))
    obtain ⟨hkeeps, hquiet⟩ := i.1.isJoiner_word
    have hjoined := spells_between hinit hname hkeeps hquiet fun _ hf => Word.isRead_infix i.1 hf
    simpa [text, words, operatorWords, i.1.text_word] using hjoined

end Chain

namespace OperatorTree

/-- The names and operators from left to right. -/
def inOrder : OperatorTree → Chain
  | operand name => ⟨name, []⟩
  | join operator left right =>
    ⟨left.inOrder.first,
      left.inOrder.others ++ (operator, right.inOrder.first) :: right.inOrder.others⟩

/-- The expression that the tree is, without places. -/
def toExpression : OperatorTree → Expression
  | operand name => .identifier ⟨default, name⟩
  | join operator left right => operator.join default left.toExpression right.toExpression

/-- Whether a tree binds as tightly as `level` or tighter. -/
def bindsAt (level : Nat) : OperatorTree → Bool
  | operand _ => true
  | join operator _ _ => level ≤ operator.strength

/-- Every operator has operators below it that bind tighter, or equally tight on the side to
which it groups. -/
def isGrouped : OperatorTree → Bool
  | operand _ => true
  | join operator left right =>
    left.isGrouped && right.isGrouped && left.bindsAt operator.leftLevel &&
      right.bindsAt operator.rightLevel

/-- One more operator and a name behind a tree. It takes what stands on the right of looser
operators. -/
def graft (operator : InfixOperator) (name : String) : OperatorTree → OperatorTree
  | operand first => join operator (operand first) (operand name)
  | join other left right =>
    if other.rightLevel ≤ operator.strength then join other left (right.graft operator name)
    else join operator (join other left right) (operand name)

variable {operator : InfixOperator} {name : String} {tree : OperatorTree} {level : Nat}

theorem inOrder_graft : (tree.graft operator name).inOrder =
    ⟨tree.inOrder.first, tree.inOrder.others ++ [(operator, name)]⟩ := by
  induction tree with
  | operand first => rfl
  | join other left right _ ih =>
    unfold graft
    split
    · simp [inOrder, ih]
    · simp [inOrder]

theorem bindsAt_graft (h : tree.bindsAt level = true) (hlevel : level ≤ operator.strength) :
    (tree.graft operator name).bindsAt level = true := by
  cases tree with
  | operand first => exact decide_eq_true hlevel
  | join other left right =>
    unfold graft
    split
    · exact h
    · exact decide_eq_true hlevel

/-- A looser operator, or an equally tight one that groups to the left, takes the whole tree. -/
theorem leftLevel_le_of_lt {other : InfixOperator} (h : ¬other.rightLevel ≤ operator.strength) :
    operator.leftLevel ≤ other.strength := by
  unfold InfixOperator.leftLevel
  unfold InfixOperator.rightLevel at h
  rcases operator.cases_strength with ⟨hassoc, -, -⟩ | ⟨hassoc, heq⟩ <;>
    rcases other.cases_strength with ⟨hassoc', -, hle'⟩ | ⟨hassoc', heq'⟩ <;>
    simp only [hassoc, hassoc', Bool.false_eq_true, if_true, if_false] at h ⊢ <;> omega

theorem isGrouped_graft (h : tree.isGrouped = true) :
    (tree.graft operator name).isGrouped = true := by
  induction tree with
  | operand first => rfl
  | join other left right _ ih =>
    simp only [isGrouped, Bool.and_eq_true] at h
    obtain ⟨⟨⟨hleft, hright⟩, hleftLevel⟩, hrightLevel⟩ := h
    unfold graft
    split
    · rename_i htight
      simp only [isGrouped, Bool.and_eq_true]
      exact ⟨⟨⟨hleft, ih hright⟩, hleftLevel⟩, bindsAt_graft hrightLevel htight⟩
    · rename_i hloose
      simp only [isGrouped, Bool.and_eq_true]
      exact ⟨⟨⟨⟨⟨⟨hleft, hright⟩, hleftLevel⟩, hrightLevel⟩, trivial⟩,
        decide_eq_true (leftLevel_le_of_lt hloose)⟩, rfl⟩

/-- Every chain is the traversal of a grouped tree. -/
theorem exists_isGrouped (c : Chain) :
    ∃ tree : OperatorTree, tree.inOrder = c ∧ tree.isGrouped = true := by
  obtain ⟨first, others⟩ := c
  induction others using List.reverseRecOn with
  | nil => exact ⟨operand first, rfl, rfl⟩
  | append_singleton others i ih =>
    obtain ⟨tree, horder, hgrouped⟩ := ih
    exact ⟨tree.graft i.1 i.2, by rw [inOrder_graft, horder], isGrouped_graft hgrouped⟩

/-- Every operator binds. -/
theorem bindsAt_one (tree : OperatorTree) : tree.bindsAt 1 = true := by
  cases tree with
  | operand => rfl
  | join operator =>
    refine decide_eq_true ?_
    rcases operator.cases_strength with ⟨-, hpos, -⟩ | ⟨-, heq⟩ <;> omega

theorem toExpression_injective : Function.Injective toExpression := by
  intro tree other h
  induction tree generalizing other with
  | operand name =>
    cases other with
    | operand =>
      cases h
      rfl
    | join operator => cases operator <;> cases h
  | join operator left right ihl ihr =>
    cases other with
    | operand => cases operator <;> cases h
    | join operator' left' right' =>
      cases operator <;> cases operator' <;>
        simp only [toExpression, InfixOperator.join, Node.logical.injEq, Node.binary.injEq,
          reduceCtorEq, true_and] at h
      all_goals
        obtain ⟨rfl, hleft, hright⟩ := h
        rw [ihl hleft, ihr hright]

theorem erase_toExpression (tree : OperatorTree) : tree.toExpression.erase = tree.toExpression := by
  induction tree with
  | operand => rfl
  | join operator left right ihl ihr => rw [toExpression, operator.erase_join, ihl, ihr]

end OperatorTree

namespace Grammar

variable {d : Descent} {σ : Scope} {options : ParseOptions}

/-- A grouped tree is what its traversal is read as. -/
theorem readsOperators_tree (hd : Answers options d) {noIn : Bool} {tree : OperatorTree}
    (h : tree.isGrouped = true) {level : Nat} (hlevel : tree.bindsAt level = true)
    (hin : ∀ i ∈ tree.inOrder.others, Chain.isEnd noIn i.1 = false) :
    ReadsOperators d σ noIn level tree.inOrder.words tree.toExpression := by
  induction tree generalizing level with
  | operand name =>
    exact readsOperators_of_operand (readsOperand_of_suffixed hd
      (readsSuffixed_of_primary (readsPrimary_identifier hd default name) rfl false)) rfl noIn level
  | join operator left right ihl ihr =>
    simp only [OperatorTree.isGrouped, Bool.and_eq_true] at h
    obtain ⟨⟨⟨hleft, hright⟩, hleftLevel⟩, hrightLevel⟩ := h
    simp only [OperatorTree.inOrder, List.forall_mem_append, List.forall_mem_cons] at hin
    obtain ⟨hinLeft, hinHere, hinRight⟩ := hin
    have hplain : noIn = true → operator.kind ≠ .keyword .in := by
      intro hno hk
      rw [hno, InfixOperator.kind_eq_in hk] at hinHere
      cases hinHere
    have hjoined := readsOperators_join hd (ihl hleft hleftLevel hinLeft)
      (ihr hright hrightLevel hinRight) hplain default
    have hle : level ≤ operator.strength := of_decide_eq_true hlevel
    rw [OperatorTree.inOrder, OperatorTree.toExpression]
    simpa [Chain.words, operatorWords] using hjoined.of_le hle

/-- Reading an expression from before its first token. -/
def leadingExpression (noIn : Bool) (d : Descent) : Parser Expression := do
  Parser.scan TokenStream.read
  expression d noIn

/-- What an expression is read as from the first token of a text on. -/
theorem run_leadingExpression {noIn : Bool} {text : List Char} {s t : ParseState}
    (hs : Begins options text s) {e : Expression}
    (h : descend options (.assignment noIn true none) s = .ok (e, none) t)
    (hk : t.kind ≠ .comma) :
    Grammar.run options (leadingExpression noIn) (.ofText options text) = .ok e t := by
  obtain ⟨stream, hread, rfl⟩ := hs
  have hworth : worth (.assignment noIn true none)
      { ParseState.ofText options text with stream := stream } <
      depthBound (.ofText options text) := by
    have hpending : stream.pending ≤ 2 * text.length := TokenStream.pending_first hread
    have hunread := stream.unread_le_pending
    change 8 * stream.unread + 2 < 8 * (2 * text.length + 4)
    omega
  rw [descend_eq_answer (g := .assignment noIn true none) trivial hworth] at h
  unfold Grammar.run leadingExpression
  rw [bind_of_ok (scan_of_ok hread)]
  have hkind : t.stream.token.kind ≠ .comma := hk
  simp [expression, expressionWith]
  exact ⟨e, none, t, h, none, .inr ⟨hkind, ⟨rfl, rfl⟩, rfl⟩⟩

/-- A chain is read as the only grouped tree that has it as its traversal. -/
theorem exists_tree_of_chain (options : ParseOptions) (noIn : Bool) (chain : Chain)
    (ordinary : chain.IsOrdinary) :
    (∃ s, TokenStream.read (.ofText chain.text) = .ok () s ∧ s.Shows chain.words) ∧
      ∀ text s, TokenStream.read (.ofText text) = .ok () s → s.Shows chain.words →
        ∃ (e : Expression) (t : ParseState) (tree : OperatorTree),
          Grammar.run options (leadingExpression noIn) (.ofText options text) = .ok e t ∧
          t.stream.Shows (chain.wordsLeft noIn) ∧ e.erase = tree.toExpression ∧
          tree.inOrder = chain.taken noIn ∧ tree.isGrouped = true ∧
          ∀ other : OperatorTree, other.inOrder = chain.taken noIn → other.isGrouped = true →
            other = tree := by
  refine ⟨(chain.spells_text ordinary).exists_shows, fun text s hread hshows => ?_⟩
  have hd : Answers options (descend options) := answers_descend
  let start : ParseState := { ParseState.ofText options text with stream := s }
  have hbegins : Begins options text start := ⟨s, hread, rfl⟩
  have hbefore : start.Before start.scope
      ((chain.taken noIn).words ++ chain.wordsLeft noIn) :=
    ⟨chain.words_eq noIn ▸ hshows, chain.words_eq noIn ▸ chain.not_arrow_of_mem_words, rfl⟩
  -- Every grouped tree with this traversal is what the text is read as.
  have hreads : ∀ tree : OperatorTree, tree.inOrder = chain.taken noIn → tree.isGrouped = true →
      ∃ e t, descend options (.assignment noIn true none) start = .ok (e, none) t ∧
        e.erase = tree.toExpression.erase ∧ t.Before start.scope (chain.wordsLeft noIn) := by
    intro tree horder hgrouped
    have hvalue : ReadsValue (descend options) start.scope noIn tree.inOrder.words
        tree.toExpression :=
      readsValue_of_operators hd rfl
        (readsOperators_tree hd hgrouped tree.bindsAt_one (horder ▸ Chain.isEnd_of_mem_taken))
    exact hvalue start _ true (horder ▸ hbefore) (chain.closes_wordsLeft noIn)
  obtain ⟨tree, horder, hgrouped⟩ := OperatorTree.exists_isGrouped (chain.taken noIn)
  obtain ⟨e, t, hrun, hsame, ht⟩ := hreads tree horder hgrouped
  have hcomma : t.kind ≠ .comma := by
    rw [ht.kind_eq]
    rcases chain.kindAhead_wordsLeft noIn with h | ⟨-, h⟩ <;> rw [h] <;> nofun
  rw [tree.erase_toExpression] at hsame
  refine ⟨e, t, tree, run_leadingExpression hbegins hrun hcomma, ht.shows, hsame, horder, hgrouped,
    fun other horder' hgrouped' => ?_⟩
  obtain ⟨e', t', hrun', hsame', -⟩ := hreads other horder' hgrouped'
  cases hrun.symm.trans hrun'
  rw [other.erase_toExpression, hsame] at hsame'
  exact OperatorTree.toExpression_injective hsame'.symm

/-- The chain `a - b - c ** d ** e * f in g`. -/
def mixedChain : Chain :=
  ⟨"a", [(.binary .sub, "b"), (.binary .sub, "c"), (.binary .exp, "d"), (.binary .exp, "e"),
    (.binary .mul, "f"), (.binary .in, "g")]⟩

/-- Where `in` ends the expression, the differences group to the left, the powers to the right. -/
theorem exists_tree_of_mixedChain :
    mixedChain.IsOrdinary ∧ ∃ e t, Grammar.run {} (leadingExpression true)
      (.ofText {} "a - b - c ** d ** e * f in g".toList) = .ok e t ∧
      e.erase = OperatorTree.toExpression (.join (.binary .sub)
        (.join (.binary .sub) (.operand "a") (.operand "b"))
        (.join (.binary .mul)
          (.join (.binary .exp) (.operand "c")
            (.join (.binary .exp) (.operand "d") (.operand "e")))
          (.operand "f"))) ∧
      t.stream.Shows [.keyword .in, .name "g"] := by
  have ordinary : mixedChain.IsOrdinary := by
    have hname : ∀ n ∈ ["a", "b", "c", "d", "e", "f", "g"], IsOrdinaryName n := by
      simp only [List.forall_mem_cons, List.not_mem_nil, false_imp_iff, implies_true, and_true]
      refine ⟨?_, ?_, ?_, ?_, ?_, ?_, ?_⟩ <;>
        exact ⟨⟨_, [], rfl, by decide, nofun⟩, by decide, by decide, by decide⟩
    exact hname
  have htext : mixedChain.text = "a - b - c ** d ** e * f in g".toList := by decide
  have hleft : mixedChain.wordsLeft true = [.keyword .in, .name "g"] := rfl
  obtain ⟨⟨s, hread, hshows⟩, htexts⟩ := exists_tree_of_chain {} true mixedChain ordinary
  obtain ⟨e, t, found, hrun, ht, hsame, -, -, hunique⟩ := htexts _ s hread hshows
  refine ⟨ordinary, e, t, htext ▸ hrun, ?_, hleft ▸ ht⟩
  rw [hsame]
  refine congrArg OperatorTree.toExpression (hunique _ ?_ ?_).symm
  · decide
  · decide

end Grammar

end EcmaTree
