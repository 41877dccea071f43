import EcmaTree.Proofs.Target.Alike
import EcmaTree.Proofs.Target.BareDefault

/-!
# Checks that demand less

A check of targets in strict code demands all that the check in sloppy code demands, and a check
that gathers names all that one without names does. So what comes through a check comes
through every looser one.
-/

namespace EcmaTree

/-- The same demand on both sides, or, where that is allowed, one that the right side drops. -/
inductive Loosened (lenient : Prop) : Bool → Bool → Prop
  | same (b : Bool) : Loosened lenient b b
  | dropped (h : lenient) : Loosened lenient true false

namespace Loosened

variable {lenient : Prop} {b b' c c' : Bool}

theorem eq_of_not (h : Loosened lenient b b') (hn : ¬lenient) : b' = b := by
  cases h with
  | same => rfl
  | dropped hl => exact absurd hl hn

theorem imp (h : Loosened lenient b b') : b' = true → b = true := by
  cases h with
  | same => exact id
  | dropped => exact nofun

theorem of_imp (h : b' = true → b = true) : Loosened True b b' := by
  cases b' with
  | true =>
    cases h rfl
    exact .same _
  | false =>
    cases b with
    | true => exact .dropped trivial
    | false => exact .same _

theorem and (h : Loosened lenient b b') : Loosened lenient (c && b) (c && b') := by
  cases c with
  | true => exact h
  | false => exact .same _

/-- What both sides demand in any case does not matter. -/
theorem or (h : Loosened lenient b b') : Loosened lenient (c || b || c') (c || b' || c') := by
  cases h with
  | same => exact .same _
  | dropped hl =>
    cases c with
    | true => exact .same _
    | false =>
      cases c' with
      | true => exact .same _
      | false => exact .dropped hl

end Loosened

namespace Check

/-- Where the first check comes through so does the second one, with the names of the first or
without any. -/
def Loosens (x x' : Check Unit) : Prop :=
  ∀ names after, x names = .ok () after → x' names = .ok () after ∧ x' none = .ok () none

theorem loosens_pure : Loosens (pure ()) (pure ()) := by
  rintro names _ ⟨⟩
  exact ⟨rfl, rfl⟩

theorem loosens_throw {e : ParseError} {x : Check Unit} : Loosens (throw e) x :=
  nofun

theorem Loosens.seq {x x' y y' : Check Unit} (hx : Loosens x x') (hy : Loosens y y') :
    Loosens (x >>= fun _ => y) (x' >>= fun _ => y') := by
  intro names after h
  obtain ⟨between, hfirst, hsecond⟩ := Node.bind_eq_ok h
  obtain ⟨hnames, hnone⟩ := hx _ _ hfirst
  obtain ⟨hnames', hnone'⟩ := hy _ _ hsecond
  change EStateM.bind x' _ names = _ ∧ EStateM.bind x' _ none = _
  unfold EStateM.bind
  rw [hnames, hnone]
  exact ⟨hnames', hnone'⟩

theorem loosens_gather {id : Identifier} : Loosens (gather id) (gather id) := by
  intro names after h
  refine ⟨h, rfl⟩

theorem loosens_name {strict strict' isBinding : Bool} {id : Identifier}
    (h : strict' = true → strict = true) :
    Loosens (name strict isBinding id) (name strict' isBinding id) := by
  unfold name
  cases hr : strict && isReservedTarget id.name with
  | true => exact loosens_throw
  | false =>
    have hr' : (strict' && isReservedTarget id.name) = false := by
      cases strict' with
      | true => exact h rfl ▸ hr
      | false => rfl
    rw [hr']
    exact loosens_gather

theorem loosens_restArgument {p : Pattern} : Loosens (restArgument p) (restArgument p) := by
  unfold restArgument
  split
  · exact loosens_throw
  · exact loosens_pure

end Check

variable {strict strict' isBinding : Bool}

/-- One case for each form that has targets in it. -/
theorem Node.loosens_checkTargets {c : Category} (n : Node c) (h : strict' = true → strict = true) :
    Check.Loosens (n.checkTargets strict isBinding) (n.checkTargets strict' isBinding) := by
  induction n with
  | namePattern id => exact Check.loosens_name h
  | memberPattern span obj prop computed =>
    cases isBinding with
    | true => exact Check.loosens_throw
    | false => exact Check.loosens_pure
  | spreadPattern span argument => exact Check.loosens_throw
  | objectPattern _ _ ih | arrayPattern _ _ ih | present _ ih => exact ih
  | defaultPattern _ _ _ ih _ => exact ih
  | propertyPattern _ _ _ _ _ ih => exact ih
  | restPattern _ _ ih | restMember _ _ ih => exact Check.loosens_restArgument.seq ih
  | cons _ _ head tail => exact head.seq tail
  | _ => exact Check.loosens_pure

/-- Names that are gathered, or none where they need not differ. -/
inductive Pattern.LooserNames (lenient : Prop) :
    Option (List String) → Option (List String) → Prop
  | same (names : Option (List String)) : LooserNames lenient names names
  | dropped (h : lenient) {names : Option (List String)} : LooserNames lenient names none

namespace Pattern

variable {lenient : Prop} {names names' after : Option (List String)}

theorem looserNames_of_loosened {distinct distinct' : Bool}
    (h : Loosened lenient distinct distinct') :
    LooserNames lenient (if distinct then some [] else none)
      (if distinct' then some [] else none) := by
  cases h with
  | same => exact .same _
  | dropped hl => exact .dropped hl

theorem check_of_check {p : Pattern} (hs : strict' = true → strict = true)
    (hn : LooserNames lenient names names')
    (h : p.check strict isBinding names = (.ok (), after)) :
    ∃ after', p.check strict' isBinding names' = (.ok (), after') ∧
      LooserNames lenient after after' := by
  unfold check at h ⊢
  split at h <;> cases h
  rename_i hc
  obtain ⟨hnames, hnone⟩ := p.loosens_checkTargets hs _ _ hc
  cases hn with
  | same =>
    rw [hnames]
    exact ⟨_, rfl, .same _⟩
  | dropped hl =>
    rw [hnone]
    exact ⟨_, rfl, .dropped hl⟩

theorem fst_check_of_check {p : Pattern} (hs : strict' = true → strict = true)
    (h : (p.check strict isBinding names).1 = .ok ()) :
    (p.check strict' isBinding names).1 = .ok () := by
  have hnames : LooserNames False names names := .same names
  obtain ⟨after, hc, -⟩ := check_of_check hs hnames (Prod.ext h rfl)
  rw [hc]

/-- Patterns that come through a check come through it in sloppy code, and where no names are
gathered. -/
theorem checkAll_of_checkAll {ps : List Pattern} (hs : strict' = true → strict = true)
    (hn : LooserNames lenient names names') (h : checkAll strict isBinding names ps = .ok ()) :
    checkAll strict' isBinding names' ps = .ok () := by
  induction ps generalizing names names' with
  | nil => rfl
  | cons p ps ih =>
    unfold checkAll at h ⊢
    split at h
    · rename_i hc
      obtain ⟨after', hc', hafter⟩ := check_of_check hs hn hc
      rw [hc']
      exact ih hafter h
    · cases h

end Pattern

end EcmaTree
