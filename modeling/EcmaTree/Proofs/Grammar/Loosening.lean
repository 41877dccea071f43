import EcmaTree.Proofs.Grammar.Loosening.Targets

/-!
# Looser options accept more

Strictness and the return option only reject: what is accepted with them is accepted without
them, as the same file. Since an attempt takes failures back, more could be rejected on the way
and another reading be taken. The only attempt is the one at the parameters of an arrow
function. Where strict code fails there and goes on with a list of expressions, the list has no
arrow behind it, or names what cannot be a parameter, in sloppy code as in strict code.
-/

namespace EcmaTree

namespace Grammar

open EcmaTree.Parser EcmaTree.Agreement EcmaTree.Reading EcmaTree.Trail

variable {options options' : ParseOptions} {d d' : Descent} {m : Nat} {s : ParseState}

/-- What strict code reads as a list, having failed to read it as parameters, sloppy code does
not read as parameters either. -/
theorem rereads (hd : Answers options d) (hd' : Answers options' d')
    (hag : ∀ {g g' : Goal} {R : g.Result → g'.Result → Prop} {s : ParseState},
      Goal.Alike (beside True).toCorrespondence g g' R → 8 * s.unread + g.rank < m →
        Agrees (beside True) R (d g) (d' g') s)
    (h : 8 * s.unread ≤ m) : Rereads (beside True) d d' s := by
  rintro - s' e u hs hlist ⟨stop, t, hfails⟩
  cases hparams : arrowParameters d' s' with
  | ok params u' =>
    obtain ⟨s₁', opening', hparams', hline, harrow⟩ := of_arrowParameters hparams
    obtain ⟨targets', htargets', -⟩ := of_parameters hparams'
    obtain ⟨s₁, items, pending, s₂, s₃, opening, items_ok, closing⟩ : ∃ s₁ items pending s₂ s₃,
        Takes .parenL s s₁ ∧ d (.parenthesized true none) s₁ = .ok (items, pending) s₂ ∧
          Takes .parenR s₂ s₃ := by
      cases hlist with
      | arrow allowed opening items_ok closing => exact ⟨_, _, _, _, _, opening, items_ok, closing⟩
      | single opening items_ok closing => exact ⟨_, _, _, _, _, opening, items_ok, closing⟩
      | sequence opening items_ok closing => exact ⟨_, _, _, _, _, opening, items_ok, closing⟩
    have hs₁ := ParseState.Beside.of_takes hs (by decide) opening opening'.2
    have hlt := ParseState.unread_lt_of_takes (by decide) opening
    obtain ⟨qs, v, hqs, -⟩ := (admits hd hd' hag).parenthesized hs₁ ParseState.isBehind_none
      (by simp; omega) items_ok closing htargets'
    have hread : parameters d s₁ = .ok qs.reduceOption v := bind_of_ok hqs
    obtain ⟨-, hend⟩ := (agrees_parameters hag (by omega)).of_both_ok hs₁ hread hparams'
    have harrows : arrowParameters d s = .ok qs.reduceOption v := by
      rw [Likeness.endsStatement_eq hend] at hline
      rw [Likeness.kind_eq hend] at harrow
      simp [arrowParameters]
      exact ⟨s₁, opening, hread, hline, harrow⟩
    cases hfails.symm.trans harrows
  | error stop' t' =>
    have hself : Agrees (beside False) _ (arrowParameters d') (arrowParameters d') s' :=
      agrees_arrowParameters (fun hg _ => hd'.agrees hg) (Nat.le_refl _)
    have hend := hself s' (ParseState.Beside.right hs)
    rw [hparams] at hend
    cases hend with
    | fault => exact ⟨_, _, rfl⟩
    | stopped lenient => exact lenient.elim

/-- The answers with looser options are those with stricter ones, where these are no failures. -/
theorem agrees_descend {g g' : Goal} {R : g.Result → g'.Result → Prop}
    (ho : options.allowReturnOutsideFunction = true → options'.allowReturnOutsideFunction = true)
    (hself : Goal.Alike (beside True).toCorrespondence g g' R) :
    Agrees (beside True) R (descend options g) (descend options' g') s := by
  have hreturn : Loosened True (!options.allowReturnOutsideFunction)
      (!options'.allowReturnOutsideFunction) := by
    apply Loosened.of_imp
    rw [Bool.not_eq_true', Bool.not_eq_true', ← Bool.not_eq_true, ← Bool.not_eq_true]
    exact mt ho
  have hd : Answers options (descend options) := answers_descend
  have hd' : Answers options' (descend options') := answers_descend
  induction hn : worth g s using Nat.strongRecOn generalizing g g' R s with
  | ind n ih =>
    intro s' hs
    have hg : g.IsBounded := by
      cases hself with
      | elements bounded | targets bounded => exact bounded
      | _ => trivial
    rw [← hd.rule_eq g s hg, ← hd'.rule_eq g' s' hself.isBounded]
    have hbelow : ∀ {h h' : Goal} {Q : h.Result → h'.Result → Prop} {t : ParseState},
        Goal.Alike (beside True).toCorrespondence h h' Q → worth h t < worth g s →
          Agrees (beside True) Q (descend options h) (descend options' h') t :=
      fun hself hlt => ih _ (hn ▸ hlt) hself rfl
    have hretry : Rereads (beside True) (descend options) (descend options') s := by
      apply rereads hd hd' (m := 8 * s.unread) _ (Nat.le_refl _)
      intro h h' Q t hself hlt
      exact hbelow hself (Nat.lt_of_lt_of_le hlt (Nat.le_add_right _ _))
    exact agrees_rule hreturn hretry hd.traces hd.shortens hbelow hself s' hs

/-- Parses of one text stand beside each other at its first token. -/
theorem beside_of_begins {text : List Char} {stream : TokenStream}
    (h : TokenStream.read (.ofText text) = .ok () stream)
    (hstrict : options'.initialStrict = true → options.initialStrict = true) :
    ParseState.Beside True { ParseState.ofText options text with stream := stream }
      { ParseState.ofText options' text with stream := stream } where
  stream_eq := rfl
  placed := TokenStream.isPlaced_of_read h
  scope := ⟨.of_imp hstrict, rfl, rfl, rfl⟩
  mark_le := nofun
  mark_le' := nofun
  mark_iff := Iff.rfl

end Grammar

open EcmaTree.Grammar EcmaTree.Parser

/-- Strictness and the return option only reject: a program that is accepted under some options
is accepted, as the same file with the same spans and comments, under all options with the same
source type that start in strict mode only if the former do and allow a return outside of
functions if the former do. -/
theorem parse_ok_of_stricter {options options' : ParseOptions} {text : List Char} {file : File}
    (hsource : options'.sourceType = options.sourceType)
    (hstrict : options'.initialStrict = true → options.initialStrict = true)
    (hreturn : options.allowReturnOutsideFunction = true →
      options'.allowReturnOutsideFunction = true)
    (h : (parse options text).result = .ok file) : (parse options' text).result = .ok file := by
  rw [parse_eq_descend] at h ⊢
  have hends := ends_parseBy options (descend options) text
  generalize parseBy options (descend options) text = parsed at h hends
  cases hends with
  | unread => cases h
  | stopped => cases h
  | @accepted s t body begins answer =>
    obtain ⟨stream, hread, rfl⟩ := begins
    have begins' : Begins options' text { ParseState.ofText options' text with stream := stream } :=
      ⟨stream, hread, rfl⟩
    obtain ⟨R, hself, hR⟩ := Goal.alike_self (g := .statements true .eof) trivial
    obtain ⟨body', t', answer', hbody, hend⟩ := (agrees_descend hreturn hself).exists_of_ok
      (beside_of_begins hread hstrict) answer
    cases hR _ _ hbody
    have hstream : t'.stream = t.stream := hend.stream_eq
    rw [parseBy_of_accepted begins' answer']
    cases h
    rw [fileSpan, hstream, hsource]
    rfl

/-- What a module in strict mode may be is the same file where strict mode is off and a return is
allowed everywhere. The parenthesis is tried as parameters, and read as a list in the end. -/
theorem parse_ok_of_stricter_module : ∃ file,
    (parse { sourceType := .module } "f((a, [b = c, {d}]), (e = (a) => a) => e)".toList).result =
      .ok file ∧
    (parse { sourceType := .module, strictMode := some false, allowReturnOutsideFunction := true }
      "f((a, [b = c, {d}]), (e = (a) => a) => e)".toList).result = .ok file := by
  obtain ⟨file, h⟩ := exists_of_isOk (x := (parse { sourceType := .module }
    "f((a, [b = c, {d}]), (e = (a) => a) => e)".toList).result) (by decide +kernel)
  refine ⟨file, h, parse_ok_of_stricter ?_ ?_ ?_ h⟩ <;> decide

end EcmaTree
