import EcmaTree.Proofs.Source.Correspondence
import EcmaTree.Proofs.Tree.Alike
import EcmaTree.Target.Check
import EcmaTree.Target.Conversion

/-!
# Targets of trees that are alike

Trees that are alike are converted to patterns that are alike, or neither of them is, with the
same fault at corresponding places. The same holds of the check of a target, which knows the
same names afterwards.
-/

namespace EcmaTree

variable {K : Correspondence}

/-- Two computations that both fail, in the same way, or both give a value. -/
inductive SameOutcome {α : Type} (K : Correspondence) (R : α → α → Prop) :
    Except ParseError α → Except ParseError α → Prop
  | ok {a a' : α} (value : R a a') : SameOutcome K R (.ok a) (.ok a')
  | error {e e' : ParseError} (errors : K.Errors e e') : SameOutcome K R (.error e) (.error e')

theorem SameOutcome.bind {α β : Type} {R : α → α → Prop} {S : β → β → Prop}
    {x x' : Except ParseError α} {f f' : α → Except ParseError β} (h : SameOutcome K R x x')
    (hf : ∀ a a', R a a' → SameOutcome K S (f a) (f' a')) :
    SameOutcome K S (x >>= f) (x' >>= f') := by
  cases h with
  | ok value => exact hf _ _ value
  | error errors => exact .error errors

namespace Converted

/-- Conversions that wait for the same flags and then have the same outcome. -/
def Alike (K : Correspondence) : (c : Category) → Converted c → Converted c → Prop
  | .expression, f, f' => ∀ isBinding,
    SameOutcome K (Node.Alike K.Spans) (f isBinding) (f' isBinding)
  | .element, f, f' => ∀ isLast isBinding,
    SameOutcome K (Node.Alike K.Spans) (f isLast isBinding) (f' isLast isBinding)
  | .member, f, f' => ∀ isBinding,
    SameOutcome K (Node.Alike K.Spans) (f isBinding) (f' isBinding)
  | .list c, xs, xs' => List.Forall₂ (Alike K c) xs xs'
  | .option c, x, x' => Option.Rel (Alike K c) x x'
  | _, _, _ => True

theorem sameOutcome_notPattern {α : Type} {R : α → α → Prop} {kind : String} {s s' : Span}
    (h : K.Spans s s') : SameOutcome K R (notPattern kind s) (notPattern kind s') :=
  .error (K.errors_start h.start)

/-- A node that has no pattern is blamed at its start. -/
theorem alike_refused {e e' : Expression} (h : e.Alike K.Spans e') :
    Alike K .expression (refused .expression e) (refused .expression e') := by
  intro isBinding
  change SameOutcome K _ (notPattern e.kindName e.span) (notPattern e'.kindName e'.span)
  rw [h.kindName_eq]
  exact sameOutcome_notPattern (h.span trivial)

theorem sameOutcome_restArgument {p p' : Pattern} (h : p.Alike K.Spans p') :
    SameOutcome K (Node.Alike K.Spans) (restArgument p) (restArgument p') := by
  have hspan : K.Spans p.span p'.span := h.span trivial
  unfold restArgument
  cases h with
  | namePattern hid => exact .ok (.namePattern hid)
  | memberPattern hs hobj hprop => exact .ok (.memberPattern hs hobj hprop)
  | arrayPattern hs helements => exact .ok (.arrayPattern hs helements)
  | objectPattern | defaultPattern | restPattern => exact .error (K.errors_start hspan.start)

theorem sameOutcome_list {xs xs' : List (Option (Converted .element))}
    (h : Alike K (.list (.option .element)) xs xs') (isBinding : Bool) :
    SameOutcome K (List.Forall₂ (Option.Rel (Node.Alike K.Spans))) (list isBinding xs)
      (list isBinding xs') := by
  change List.Forall₂ (Option.Rel (Alike K .element)) xs xs' at h
  induction h with
  | nil => exact .ok .nil
  | @cons x x' xs xs' hx htail ih =>
    cases hx with
    | none =>
      refine ih.bind fun ps ps' hps => ?_
      exact .ok (.cons .none hps)
    | some hconvert =>
      have hlast : xs'.isEmpty = xs.isEmpty := by cases htail <;> rfl
      unfold list
      rw [hlast]
      refine (hconvert _ _).bind fun p p' hp => ?_
      refine ih.bind fun ps ps' hps => ?_
      exact .ok (.cons (.some hp) hps)

theorem sameOutcome_members {xs xs' : List (Converted .member)}
    (h : Alike K (.list .member) xs xs') (isBinding : Bool) :
    SameOutcome K (List.Forall₂ (Node.Alike K.Spans)) (members isBinding xs)
      (members isBinding xs') := by
  change List.Forall₂ (Alike K .member) xs xs' at h
  induction h with
  | nil => exact .ok .nil
  | cons hx _ ih =>
    refine (hx _).bind fun m m' hm => ?_
    refine ih.bind fun ms ms' hms => ?_
    exact .ok (.cons hm hms)

end Converted

/-- One case for each form that a pattern can come from; all others are refused or not asked. -/
theorem Node.Alike.convert {c : Category} {n n' : Node c} (h : n.Alike K.Spans n') :
    Converted.Alike K c n.convert n'.convert := by
  induction h with
  | identifier hid =>
    intro isBinding
    exact .ok (.namePattern hid)
  | object hs _ ih =>
    intro isBinding
    refine (Converted.sameOutcome_members ih isBinding).bind fun ms ms' hms => ?_
    exact .ok (.objectPattern hs (Node.alike_ofList hms))
  | array hs _ ih =>
    intro isBinding
    refine (Converted.sameOutcome_list ih isBinding).bind fun ps ps' hps => ?_
    exact .ok (.arrayPattern hs (Node.alike_ofHoleyList hps))
  | @assignment _ _ _ _ _ _ operator hs htarget hvalue =>
    intro isBinding
    by_cases hop : operator = .assign
    · simp only [Node.convert, hop, if_true]
      exact .ok (.defaultPattern hs htarget hvalue)
    · simp only [Node.convert, hop, if_false]
      have hspan := htarget.span trivial
      exact .error ⟨rfl, hspan.stop⟩
  | member hs hobj hprop =>
    intro isBinding
    cases isBinding with
    | true => exact Converted.sameOutcome_notPattern hs
    | false => exact .ok (.memberPattern hs hobj hprop)
  | item _ ih => exact fun _ => ih
  | spread hs _ ih =>
    intro isLast isBinding
    cases isLast with
    | true =>
      refine (ih isBinding).bind fun p p' hp => ?_
      refine (Converted.sameOutcome_restArgument hp).bind fun q q' hq => ?_
      exact .ok (.restPattern hs hq)
    | false => exact Converted.sameOutcome_notPattern hs
  | rest hs hargument =>
    intro isLast isBinding
    cases isLast with
    | true => exact .ok (.restPattern hs hargument)
    | false => exact Converted.sameOutcome_notPattern hs
  | @property _ _ _ _ _ _ kind _ _ hs hkey _ _ ih =>
    intro isBinding
    by_cases hkind : kind = .init
    · simp only [Node.convert, hkind, if_true]
      refine (ih isBinding).bind fun p p' hp => ?_
      exact .ok (.propertyPattern hs hkey hp)
    · simp only [Node.convert, hkind, if_false]
      have hspan := hkey.span trivial
      exact .error (K.errors_start hspan.start)
  | spreadMember hs hargument =>
    intro isBinding
    exact .ok (.spreadPattern hs hargument)
  | cons _ _ head tail => exact .cons head tail
  | present _ ih => exact .some ih
  | nil => exact .nil
  | absent => exact .none
  | literal | this | function | arrow | template | unary | update | binary | logical
  | conditional | call | new | sequence | yield =>
    apply Converted.alike_refused
    constructor <;> assumption
  | _ => trivial

/-- The elements of a list may be holes; the last one may gather the rest. -/
theorem sameOutcome_patternsOfElements {xs xs' : List (Option Element)}
    (h : List.Forall₂ (Option.Rel (Node.Alike K.Spans)) xs xs') (isBinding : Bool) :
    SameOutcome K (List.Forall₂ (Option.Rel (Node.Alike K.Spans)))
      (patternsOfElements xs isBinding) (patternsOfElements xs' isBinding) := by
  apply Converted.sameOutcome_list
  change List.Forall₂ _ (xs.map _) (xs'.map _)
  rw [List.forall₂_map_left_iff, List.forall₂_map_right_iff]
  refine h.imp fun x x' hx => ?_
  cases hx with
  | none => exact .none
  | some hx => exact .some hx.convert

namespace Check

/-- Two checks that from the same names come to the same names, with the same fault if any. -/
def Alike (K : Correspondence) (x x' : Check Unit) : Prop :=
  ∀ names, (∃ after, x names = .ok () after ∧ x' names = .ok () after) ∨
    ∃ e e' after, x names = .error e after ∧ x' names = .error e' after ∧ K.Errors e e'

theorem alike_pure : Alike K (pure ()) (pure ()) :=
  fun names => .inl ⟨names, rfl, rfl⟩

theorem alike_throw {e e' : ParseError} (h : K.Errors e e') : Alike K (throw e) (throw e') :=
  fun names => .inr ⟨e, e', names, rfl, rfl, h⟩

theorem Alike.seq {x x' y y' : Check Unit} (hx : Alike K x x') (hy : Alike K y y') :
    Alike K (x >>= fun _ => y) (x' >>= fun _ => y') := by
  intro names
  change (∃ after, EStateM.bind x _ names = _ ∧ EStateM.bind x' _ names = _) ∨
    ∃ e e' after, EStateM.bind x _ names = _ ∧ EStateM.bind x' _ names = _ ∧ _
  unfold EStateM.bind
  rcases hx names with ⟨after, h, h'⟩ | ⟨e, e', after, h, h', he⟩
  · rw [h, h']
    exact hy after
  · rw [h, h']
    exact .inr ⟨e, e', after, rfl, rfl, he⟩

variable {id id' : Identifier} {strict isBinding : Bool}

theorem alike_gather (h : id.Alike K.Spans id') : Alike K (gather id) (gather id') := by
  intro names
  unfold gather
  rw [h.name_eq]
  cases names with
  | none => exact .inl ⟨none, rfl, rfl⟩
  | some names =>
    by_cases hmem : names.contains id.name = true
    · simp only [hmem, if_true]
      exact .inr ⟨_, _, _, rfl, rfl, K.errors_start h.place.start⟩
    · simp only [hmem]
      exact .inl ⟨_, rfl, rfl⟩

theorem alike_name (h : id.Alike K.Spans id') :
    Alike K (name strict isBinding id) (name strict isBinding id') := by
  unfold name
  rw [h.name_eq]
  split
  · exact alike_throw (K.errors_start h.place.start)
  · exact alike_gather h

theorem alike_restArgument {p p' : Pattern} (h : p.Alike K.Spans p') :
    Alike K (restArgument p) (restArgument p') := by
  unfold restArgument
  cases h with
  | defaultPattern hs _ _ => exact alike_throw (K.errors_start hs.start)
  | namePattern | objectPattern | arrayPattern | restPattern | memberPattern => exact alike_pure

end Check

/-- One case for each form that has targets in it. -/
theorem Node.Alike.checkTargets {c : Category} {n n' : Node c} (h : n.Alike K.Spans n')
    (strict isBinding : Bool) :
    Check.Alike K (n.checkTargets strict isBinding) (n'.checkTargets strict isBinding) := by
  induction h with
  | namePattern hid => exact Check.alike_name hid
  | memberPattern hs _ _ =>
    cases isBinding with
    | true => exact Check.alike_throw (K.errors_start hs.start)
    | false => exact Check.alike_pure
  | spreadPattern hs _ => exact Check.alike_throw (K.errors_start hs.start)
  | objectPattern _ _ ih | arrayPattern _ _ ih | defaultPattern _ _ _ ih
  | propertyPattern _ _ _ _ ih | present _ ih =>
    exact ih
  | restPattern _ hargument ih | restMember _ hargument ih =>
    exact (Check.alike_restArgument hargument).seq ih
  | cons _ _ head tail => exact head.seq tail
  | _ => exact Check.alike_pure

/-- After a check of patterns that are alike the same names are known. -/
theorem check_alike {p p' : Pattern} (h : p.Alike K.Spans p') (strict isBinding : Bool)
    (names : Option (List String)) :
    SameOutcome K Eq (p.check strict isBinding names).1
        (p'.check strict isBinding names).1 ∧
      (p'.check strict isBinding names).2 = (p.check strict isBinding names).2 := by
  unfold Pattern.check
  rcases h.checkTargets strict isBinding names with ⟨after, h, h'⟩ | ⟨e, e', after, h, h', he⟩
  · rw [h, h']
    exact ⟨.ok rfl, rfl⟩
  · rw [h, h']
    exact ⟨.error he, rfl⟩

theorem checkAll_alike {ps ps' : List Pattern} (h : List.Forall₂ (Node.Alike K.Spans) ps ps')
    (strict isBinding : Bool) (names : Option (List String)) :
    SameOutcome K Eq (Pattern.checkAll strict isBinding names ps)
      (Pattern.checkAll strict isBinding names ps') := by
  induction h generalizing names with
  | nil => exact .ok rfl
  | @cons p p' ps ps' hp _ ih =>
    obtain ⟨hcheck, hnames⟩ := check_alike hp strict isBinding names
    unfold Pattern.checkAll
    revert hcheck hnames
    rcases p.check strict isBinding names with ⟨r, after⟩
    rcases p'.check strict isBinding names with ⟨r', after'⟩
    intro hcheck hnames
    cases hnames
    cases hcheck with
    | ok => exact ih after
    | error errors => exact .error errors

end EcmaTree
