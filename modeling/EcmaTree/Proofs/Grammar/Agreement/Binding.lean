import EcmaTree.Proofs.Grammar.Agreement.Basic

/-!
# Agreement of the rules for targets and functions

A goal is worth a number of tokens and, among the goals at one token, a rank: a rule passes to
goals of a lower rank only, until it has left a token behind. Below `m` is the worth of the
goal whose rules are compared; on goals that are worth less the descents agree already.
-/

namespace EcmaTree

namespace Goal

/-- How many more goals a rule may pass to before it has to leave a token behind. -/
def rank : Goal → Nat
  | .statements _ _ => 4
  | .statement => 3
  | .elements _ _ _ isFirst _ | .parenthesized isFirst _ => if isFirst then 3 else 0
  | .assignment _ _ _ => 2
  | .targets _ _ _ isFirst | .patternMembers isFirst | .members isFirst _ =>
    if isFirst then 1 else 0
  | .unary _ => 1
  | _ => 0

theorem rank_le (g : Goal) : g.rank ≤ 4 := by
  unfold rank
  split
  case h_3 | h_4 => split <;> decide
  case h_6 | h_7 | h_8 => split <;> decide
  all_goals decide

/-- Goals that ask the same question with corresponding parts, and how answers to them are
related. A list of items does not go on to the end of input. -/
inductive Alike (K : Correspondence) :
    (g g' : Goal) → (g.Result → g'.Result → Prop) → Prop
  | statement : Alike K .statement .statement K.Nodes
  | statements {inPrologue : Bool} {stop : TokenKind} :
    Alike K (.statements inPrologue stop) (.statements inPrologue stop) (List.Forall₂ K.Nodes)
  | declarators {inFor : Bool} {kind : VariableKind} :
    Alike K (.declarators inFor kind) (.declarators inFor kind) (List.Forall₂ K.Nodes)
  | assignment {noIn owned : Bool} {pending pending' : Pending} (h : K.Pendings pending pending') :
    Alike K (.assignment noIn owned pending) (.assignment noIn owned pending') (K.Readings K.Nodes)
  | commaOperands {noIn owned : Bool} {pending pending' : Pending}
    (h : K.Pendings pending pending') :
    Alike K (.commaOperands noIn owned pending) (.commaOperands noIn owned pending')
      (K.Readings (List.Forall₂ K.Nodes))
  | unary {pending pending' : Pending} (h : K.Pendings pending pending') :
    Alike K (.unary pending) (.unary pending') (K.Readings K.Nodes)
  | operators {left left' : Expression} {start start' : Place} {floor : Nat} {noIn : Bool}
    (h : K.Nodes left left') (hs : K.Start start start') :
    Alike K (.operators left start floor noIn) (.operators left' start' floor noIn) K.Nodes
  | primary {pending pending' : Pending} (h : K.Pendings pending pending') :
    Alike K (.primary pending) (.primary pending') (K.Readings K.Nodes)
  | suffixes {base base' : Expression} {start start' : Place} {noCalls : Bool}
    (h : K.Nodes base base') (hs : K.Start start start') :
    Alike K (.suffixes base start noCalls) (.suffixes base' start' noCalls) K.Nodes
  | elements {stop : TokenKind} {trailingComma holes isFirst : Bool} {pending pending' : Pending}
    (bounded : stop ≠ .eof) (h : K.Pendings pending pending') :
    Alike K (.elements stop trailingComma holes isFirst pending)
      (.elements stop trailingComma holes isFirst pending')
      (K.Readings (List.Forall₂ (Option.Rel K.Nodes)))
  | parenthesized {isFirst : Bool} {pending pending' : Pending}
    (h : K.Pendings pending pending') :
    Alike K (.parenthesized isFirst pending) (.parenthesized isFirst pending')
      (K.Readings (List.Forall₂ K.Nodes))
  | members {isFirst : Bool} {pending pending' : Pending} (h : K.Pendings pending pending') :
    Alike K (.members isFirst pending) (.members isFirst pending')
      (K.Readings (List.Forall₂ K.Nodes))
  | chunks : Alike K .chunks .chunks
      (Prod.RProd (List.Forall₂ (TemplateElement.Alike K.Spans)) (List.Forall₂ K.Nodes))
  | targets {stop : TokenKind} {holes trailingComma isFirst : Bool} (bounded : stop ≠ .eof) :
    Alike K (.targets stop holes trailingComma isFirst) (.targets stop holes trailingComma isFirst)
      (List.Forall₂ (Option.Rel K.Nodes))
  | patternMembers {isFirst : Bool} :
    Alike K (.patternMembers isFirst) (.patternMembers isFirst) (List.Forall₂ K.Nodes)

theorem Alike.rank_eq {K : Correspondence} {g g' : Goal} {R : g.Result → g'.Result → Prop}
    (h : Alike K g g' R) : g'.rank = g.rank := by
  cases h <;> rfl

theorem Alike.isBounded {K : Correspondence} {g g' : Goal}
    {R : g.Result → g'.Result → Prop} (h : Alike K g g' R) : g'.IsBounded := by
  cases h with
  | elements bounded | targets bounded => exact bounded
  | _ => trivial

end Goal

/-- Parts of functions that are alike. -/
structure Grammar.FunctionParts.Alike (K : Correspondence) (f f' : Grammar.FunctionParts) :
    Prop where
  place : K.Spans f.span f'.span
  id : Option.Rel (Identifier.Alike K.Spans) f.id f'.id
  params : List.Forall₂ K.Nodes f.params f'.params
  body : K.Nodes f.body f'.body
  generator_eq : f'.generator = f.generator

/-- Holes are left out of lists in the same way. -/
theorem forall₂_reduceOption {α : Type} {R : α → α → Prop} {xs ys : List (Option α)}
    (h : List.Forall₂ (Option.Rel R) xs ys) :
    List.Forall₂ R xs.reduceOption ys.reduceOption := by
  induction h with
  | nil => exact .nil
  | cons hxy _ ih =>
    cases hxy with
    | none => exact ih
    | some hab => exact .cons hab ih

namespace Agreement

open EcmaTree.Parser EcmaTree.Grammar EcmaTree.Reading EcmaTree.Trail ParseState

variable {L : Likeness} {d d' : Descent} {m : Nat} {s : ParseState}

theorem agrees_identifier {liberal : Bool} :
    Agrees L (Identifier.Alike L.Spans) (identifier liberal) (identifier liberal) s := by
  unfold identifier
  apply Agrees.here
  intro start hstart
  apply Agrees.token
  intro t ht
  rw [ht.kind_eq, ht.value_eq]
  split
  · apply Agrees.ite
    · intro hk
      apply Agrees.advance
      · rintro he
        simp [he, TokenKind.isKeyword, TokenKind.keyword?] at hk
      · intro u _ _
        exact .finish hstart fun sp sp' hsp => agrees_pure ⟨hsp, rfl⟩
    · intro _
      exact agrees_unexpected
  · exact agrees_unexpected

theorem agrees_literal : Agrees L (Literal.Alike L.Spans) literal literal s := by
  unfold literal
  apply Agrees.here
  intro start hstart
  apply Agrees.token
  intro t ht
  have hvalue : literalValue? t = literalValue? s.stream.token := by
    unfold literalValue?
    rw [ht.kind_eq, ht.value_eq]
  rw [hvalue, ht.text_eq]
  split
  · rename_i value hv
    apply Agrees.advance
    · rintro he
      simp [literalValue?, he] at hv
    · intro u _ _
      exact .finish hstart fun sp sp' hsp => agrees_pure ⟨hsp, rfl, rfl⟩
  · exact agrees_unexpected

/-- A rest begins with an ellipsis. -/
theorem agrees_restOfBinding (hk : s.kind = .ellipsis) :
    Agrees L (Prod.RProd L.Spans L.Nodes) restOfBinding restOfBinding s := by
  unfold restOfBinding
  apply Agrees.here
  intro start hstart
  apply Agrees.advance (by simp [hk])
  intro t _ _
  refine agrees_identifier.bind fun id id' u hid _ => ?_
  exact .finish hstart fun sp sp' hsp => agrees_pure ⟨hsp, .namePattern hid⟩

/-- The comma before an item makes room; the first item needs some of its own. -/
theorem room_of_separator {isFirst : Bool} {k : Nat} {t : ParseState}
    (h : 8 * s.unread + (if isFirst then k else 0) ≤ m) (hk : k ≤ 8)
    (hsep : Separator isFirst s t) : 8 * t.unread + k ≤ m := by
  cases hsep with
  | first => exact h
  | comma comma =>
    have hlt := unread_lt_of_takes (by decide) comma
    omega

section Rules

/- Answers follow their token streams, and on goals worth less than `m` the descents agree. -/
variable (ht : ∀ g s r u, d g s = .ok r u → g.IsBounded → g.Traces s u)
  (hd : ∀ {g g' : Goal} {R : g.Result → g'.Result → Prop} {s : ParseState},
    Goal.Alike L.toCorrespondence g g' R → 8 * s.unread + g.rank < m →
      Agrees L R (d g) (d' g') s)

include hd

/-- After a token every goal is worth little enough. -/
theorem agrees_goal {g g' : Goal} {R : g.Result → g'.Result → Prop}
    (hg : Goal.Alike L.toCorrespondence g g' R) (h : 8 * s.unread + 4 < m) :
    Agrees L R (d g) (d' g') s := by
  apply hd hg
  have hrank := g.rank_le
  omega

theorem agrees_value {noIn : Bool} (h : 8 * s.unread + 2 < m) :
    Agrees L L.Nodes (d.value noIn) (d'.value noIn) s := by
  refine (hd (.assignment .none) h).bind ?_
  rintro _ _ t ⟨he, _⟩ _
  exact agrees_pure he

theorem agrees_operand (h : 8 * s.unread + 1 < m) :
    Agrees L L.Nodes d.operand d'.operand s := by
  refine (hd (.unary .none) h).bind ?_
  rintro _ _ t ⟨he, hp⟩ _
  exact (agrees_refuse hp).seq fun _ _ => agrees_pure he

theorem agrees_propertyName (h : 8 * s.unread ≤ m) :
    Agrees L L.Nodes (propertyName d) (propertyName d') s := by
  unfold propertyName
  apply Agrees.eatElse (by decide)
  · intro t _ hlt
    refine (agrees_value hd (by omega)).bind fun key key' u hkey _ => ?_
    exact .expect (by decide) fun _ _ _ => agrees_pure (.computedKey hkey)
  · intro _
    apply Agrees.kind
    split
    · exact agrees_literal.bind fun _ _ _ hlit _ => agrees_pure (.literalKey hlit)
    · exact agrees_literal.bind fun _ _ _ hlit _ => agrees_pure (.literalKey hlit)
    · exact agrees_identifier.bind fun _ _ _ hid _ => agrees_pure (.nameKey hid)

theorem agrees_bindingAtom (h : 8 * s.unread ≤ m) :
    Agrees L L.Nodes (bindingAtom d) (bindingAtom d') s := by
  unfold bindingAtom
  apply Agrees.kind
  split
  · exact agrees_identifier.bind fun _ _ _ hid _ => agrees_pure (.namePattern hid)
  · rename_i hk
    apply Agrees.here
    intro start hstart
    apply Agrees.advance (by simp [hk])
    intro t _ hlt
    refine (agrees_goal hd (.targets (by decide)) (by omega)).bind fun _ _ u helements _ => ?_
    refine .finish hstart fun sp sp' hsp => ?_
    exact agrees_pure (.arrayPattern hsp (Node.alike_ofHoleyList helements))
  · unfold objectPattern
    apply Agrees.here
    intro start hstart
    apply Agrees.expect (by decide)
    intro t _ hlt
    refine (agrees_goal hd .patternMembers (by omega)).bind fun _ _ u hmembers _ => ?_
    refine .finish hstart fun sp sp' hsp => ?_
    exact agrees_pure (.objectPattern hsp (Node.alike_ofList hmembers))
  · exact agrees_unexpected

theorem agrees_withDefault {start start' : Place} {target target' : Pattern}
    (hstart : L.Start start start') (htarget : L.Nodes target target') (h : 8 * s.unread ≤ m) :
    Agrees L L.Nodes (withDefault d start target) (withDefault d' start' target') s := by
  unfold withDefault
  apply Agrees.eatElse (by decide)
  · intro t _ hlt
    refine (agrees_value hd (by omega)).bind fun value value' u hvalue _ => ?_
    exact .finish hstart fun sp sp' hsp => agrees_pure (.defaultPattern hsp htarget hvalue)
  · intro _
    exact agrees_pure htarget

include ht

theorem agrees_bindingElement (h : 8 * s.unread ≤ m) :
    Agrees L L.Nodes (bindingElement d) (bindingElement d') s := by
  unfold bindingElement
  apply Agrees.here
  intro start hstart
  refine (agrees_bindingAtom hd h).bind fun target target' t htarget hrun => ?_
  have hle := unread_le_of_follows (follows_of_bindingAtom ht (of_bindingAtom hrun))
  exact agrees_withDefault hd hstart htarget (by omega)

theorem agrees_targets {stop : TokenKind} {holes trailingComma isFirst : Bool}
    (hstop : stop ≠ .eof) (h : 8 * s.unread + (if isFirst then 1 else 0) ≤ m) :
    Agrees L (List.Forall₂ (Option.Rel L.Nodes)) (targets d stop holes trailingComma isFirst)
      (targets d' stop holes trailingComma isFirst) s := by
  simp only [targets, ite_bind, unless_bind]
  apply Agrees.closing (.inl rfl) hstop (fun _ => agrees_pure .nil)
  apply Agrees.separator
  intro s₁ hsep
  have h₁ : 8 * s₁.unread + 1 ≤ m := room_of_separator h (by decide) hsep
  have hrest : ∀ {t : ParseState}, t.unread ≤ s₁.unread →
      Agrees L (List.Forall₂ (Option.Rel L.Nodes)) (d (.targets stop holes trailingComma false))
        (d' (.targets stop holes trailingComma false)) t := by
    intro t hle
    exact hd (.targets hstop) (show 8 * t.unread + 0 < m by omega)
  apply Agrees.seesIf
  intro isHole
  apply Agrees.ite
  · intro _
    exact (hrest (Nat.le_refl _)).bind fun _ _ _ hmore _ => agrees_pure (.cons .none hmore)
  intro _
  refine .closing (k := stop) ?_ hstop (fun _ => agrees_pure .nil) ?_
  · split
    · exact .inl rfl
    · exact .inr rfl
  apply Agrees.seesElse
  · intro hk
    refine (agrees_restOfBinding hk).bind ?_
    rintro _ _ t ⟨hsp, hargument⟩ _
    refine (Agrees.expect_self hstop).seq fun _ _ => ?_
    exact agrees_pure (.cons (.some (.restPattern hsp hargument)) .nil)
  · intro _
    refine (agrees_bindingElement ht hd (by omega)).bind fun target target' s₂ htarget hrun => ?_
    have hle := unread_le_of_follows (follows_of_bindingElement ht hrun)
    exact (hrest hle).bind fun _ _ _ hmore _ => agrees_pure (.cons (.some htarget) hmore)

theorem agrees_patternProperty (h : 8 * s.unread ≤ m) :
    Agrees L L.Nodes (patternProperty d) (patternProperty d') s := by
  unfold patternProperty
  apply Agrees.here
  intro start hstart
  refine (agrees_propertyName hd h).bind fun key key' t hkey hrun => ?_
  have hle := unread_le_of_follows (follows_of_propertyName ht (of_propertyName hrun))
  apply Agrees.eatElse (by decide)
  · intro u _ hlt
    refine (agrees_bindingElement ht hd (by omega)).bind fun value value' v hvalue _ => ?_
    exact .finish hstart fun sp sp' hsp => agrees_pure (.propertyPattern hsp hkey hvalue)
  · intro _
    cases hkey with
    | nameKey hid =>
      refine (agrees_withDefault hd hstart (.namePattern hid) (by omega)).bind ?_
      intro value value' v hvalue _
      refine .finish hstart fun sp sp' hsp => ?_
      exact agrees_pure (.propertyPattern hsp (.nameKey hid) hvalue)
    | literalKey | computedKey => exact agrees_unexpected

theorem agrees_patternMembers {isFirst : Bool}
    (h : 8 * s.unread + (if isFirst then 1 else 0) ≤ m) :
    Agrees L (List.Forall₂ L.Nodes) (patternMembers d isFirst) (patternMembers d' isFirst) s := by
  simp only [patternMembers, ite_bind, unless_bind]
  apply Agrees.closing (.inl rfl) (by decide) (fun _ => agrees_pure .nil)
  apply Agrees.separator
  intro s₁ hsep
  have h₁ : 8 * s₁.unread + 1 ≤ m := room_of_separator h (by decide) hsep
  refine .closing (k := .braceR) ?_ (by decide) (fun _ => agrees_pure .nil) ?_
  · split
    · exact .inr rfl
    · exact .inl rfl
  apply Agrees.seesElse
  · intro hk
    refine (agrees_restOfBinding hk).bind ?_
    rintro _ _ t ⟨hsp, hargument⟩ _
    refine (Agrees.expect_self (by decide)).seq fun _ _ => ?_
    exact agrees_pure (.cons (.restMember hsp hargument) .nil)
  · intro _
    refine (agrees_patternProperty ht hd (by omega)).bind fun member member' s₂ hmember hrun => ?_
    have hle := unread_le_of_follows (follows_of_patternProperty ht (of_patternProperty hrun))
    refine (hd .patternMembers (show 8 * s₂.unread + 0 < m by omega)).bind ?_
    intro rest rest' t hrest _
    exact agrees_pure (.cons hmember hrest)

omit ht in
theorem agrees_block {directives : Bool} (h : 8 * s.unread ≤ m) :
    Agrees L L.Nodes (block d directives) (block d' directives) s := by
  unfold block
  apply Agrees.here
  intro start hstart
  apply Agrees.expect (by decide)
  intro t _ hlt
  refine (agrees_goal hd .statements (by omega)).bind fun _ _ u hbody _ => ?_
  exact .finish hstart fun sp sp' hsp => agrees_pure (.block hsp (Node.alike_ofList hbody))

omit ht in
theorem agrees_parameters (h : 8 * s.unread + 1 < m) :
    Agrees L (List.Forall₂ L.Nodes) (parameters d) (parameters d') s := by
  refine (hd (.targets (by decide)) h).bind fun _ _ t hparams _ => ?_
  exact agrees_pure (forall₂_reduceOption hparams)

omit ht hd in
theorem agrees_functionBody {α : Type} {R : α → α → Prop} {id id' : Option Identifier}
    {params params' : List Pattern} {generator isArrow : Bool} {body body' : Parser α}
    (hid : Option.Rel (Identifier.Alike L.Spans) id id')
    (hparams : List.Forall₂ L.Nodes params params')
    (hbody : Agrees L R body body' (s.enterFunction generator)) :
    Agrees L R (functionBody id params generator isArrow body)
      (functionBody id' params' generator isArrow body') s := by
  have hnames : params'.all Pattern.isName = params.all Pattern.isName := by
    induction hparams with
    | nil => rfl
    | cons hp _ ih => rw [List.all_cons, List.all_cons, hp.isName_eq, ih]
  unfold functionBody
  rw [hnames]
  apply Agrees.withinFunction
  refine hbody.bind fun result result' t hresult _ => ?_
  apply Agrees.strict
  intro strict strict' hstrict
  have hlist : Agrees L R
      (do
        checkTargets true (isArrow || strict || !params.all Pattern.isName) params
        return result)
      (do
        checkTargets true (isArrow || strict' || !params.all Pattern.isName) params'
        return result') t :=
    (agrees_checkTargets hparams hstrict.or).seq fun _ _ => agrees_pure hresult
  cases hid with
  | none => cases strict <;> cases strict' <;> exact hlist
  | some hid =>
    cases hstrict with
    | same strict =>
      cases strict with
      | true =>
        refine (agrees_checkTarget (.namePattern hid)).seq fun u hcheck => ?_
        obtain ⟨-, rfl⟩ := checkTarget_eq_ok.mp hcheck
        exact hlist
      | false => exact hlist
    | dropped lenient => exact agrees_checkTarget_left lenient hlist

theorem agrees_function {start start' : Place} {isDeclaration : Bool}
    (hstart : L.Start start start') (h : 8 * s.unread ≤ m) :
    Agrees L (FunctionParts.Alike L.toCorrespondence) (function d start isDeclaration)
      (function d' start' isDeclaration) s := by
  simp only [function, ite_bind]
  refine (Agrees.eat_self (by decide)).bind ?_
  rintro generator _ s₁ rfl hstar
  have h₁ := unread_le_of_follows (follows_of_eats (eat_eq_ok.mp hstar) (by decide))
  have hnamed : Agrees L Eq (if isDeclaration then pure true else sees .name)
      (if isDeclaration then pure true else sees .name) s₁ :=
    .ite (fun _ => agrees_pure rfl) fun _ => .sees_self
  refine hnamed.bind ?_
  rintro named _ s₂ rfl hn
  obtain rfl : s₂ = s₁ := by
    split at hn <;> simp at hn <;> exact hn.2
  have hname : Agrees L (Option.Rel (Identifier.Alike L.Spans))
      (if named then some <$> identifier false else pure none)
      (if named then some <$> identifier false else pure none) s₂ :=
    .ite (fun _ => agrees_identifier.map fun _ _ => .some) fun _ => agrees_pure .none
  refine hname.bind fun id id' s₃ hid hrun => ?_
  have h₃ : s₃.unread ≤ s₂.unread := by
    split at hrun
    · obtain ⟨id, hid, -⟩ := map_eq_ok.mp hrun
      exact unread_le_of_follows (follows_of_identifier hid)
    · obtain ⟨-, rfl⟩ := pure_eq_ok.mp hrun
      exact Nat.le_refl _
  apply Agrees.expect (by decide)
  intro s₄ _ hlt
  refine (agrees_parameters hd (by omega)).bind fun params params' s₅ hparams hp => ?_
  have h₅ := unread_le_of_follows (follows_of_parameters ht hp)
  have hbody : 8 * s₅.unread ≤ m := by omega
  refine (agrees_functionBody hid hparams (agrees_block hd hbody)).bind ?_
  intro body body' t hblock _
  exact .finish hstart fun sp sp' hsp => agrees_pure ⟨hsp, hid, hparams, hblock, rfl⟩

theorem agrees_method {generator : Bool} (h : 8 * s.unread ≤ m) :
    Agrees L (FunctionParts.Alike L.toCorrespondence) (method d generator)
      (method d' generator) s := by
  unfold method
  apply Agrees.here
  intro start hstart
  apply Agrees.expect (by decide)
  intro s₁ _ hlt
  refine (agrees_parameters hd (by omega)).bind fun params params' s₂ hparams hp => ?_
  have hle := unread_le_of_follows (follows_of_parameters ht hp)
  have hbody : 8 * s₂.unread ≤ m := by omega
  refine (agrees_functionBody .none hparams (agrees_block hd hbody)).bind ?_
  intro body body' t hblock _
  exact .finish hstart fun sp sp' hsp => agrees_pure ⟨hsp, .none, hparams, hblock, rfl⟩

omit ht in
theorem agrees_arrowBody (h : 8 * s.unread + 2 < m) :
    Agrees L L.Nodes (arrowBody d) (arrowBody d') s := by
  unfold arrowBody
  apply Agrees.seesElse
  · intro _
    exact (agrees_block hd (by omega)).bind fun _ _ _ hb _ => agrees_pure (.blockBody hb)
  · intro _
    exact (agrees_value hd h).bind fun _ _ _ hv _ => agrees_pure (.conciseBody hv)

omit ht in
theorem agrees_arrow {start start' : Place} {params params' : List Pattern}
    (hstart : L.Start start start') (hparams : List.Forall₂ L.Nodes params params')
    (h : 8 * s.unread ≤ m) :
    Agrees L L.Nodes (arrow d start params) (arrow d' start' params') s := by
  unfold arrow
  apply Agrees.expect (by decide)
  intro s₁ _ hlt
  have hbody : 8 * s₁.unread + 2 < m := by omega
  refine (agrees_functionBody .none hparams (agrees_arrowBody hd hbody)).bind ?_
  intro body body' t hb _
  exact .finish hstart fun sp sp' hsp => agrees_pure (.arrow hsp (Node.alike_ofList hparams) hb)

end Rules

end Agreement

end EcmaTree
