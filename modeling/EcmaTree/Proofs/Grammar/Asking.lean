import EcmaTree.Proofs.Grammar.Asking.Statement
import EcmaTree.Proofs.Grammar.Termination

/-!
# Slashes where operands are asked for

A parse is a tree of questions. Each rule asks goals, and its answer hangs on theirs. Wherever an
operand is asked for, in attempts and in texts that are refused as well, the reader takes a slash
for the beginning of a regular expression. It does not where a statement begins, behind `++` and
`--`, and behind the names `yield` and `of`, which it takes for operands themselves.
-/

namespace EcmaTree

open EcmaTree.Parser EcmaTree.Grammar

variable {options : ParseOptions} {text : List Char} {g h : Goal} {s t : ParseState}

/-- The answer to `g` at `s` hangs on that to `h` at `t`: with another answer to this goal alone it
is another one. -/
def Asks (options : ParseOptions) (g : Goal) (s : ParseState) (h : Goal) (t : ParseState) : Prop :=
  ∃ d : Descent, (∀ g' s', ¬(g' = h ∧ s' = t) → d g' s' = descend options g' s') ∧
    rule options d g s ≠ descend options g s

/-- What a parse of a text asks. -/
inductive Asked (options : ParseOptions) (text : List Char) : Goal → ParseState → Prop
  | program {s : ParseState} (begins : Begins options text s) :
      Asked options text (.statements true .eof) s
  | goal {g h : Goal} {s t : ParseState} (asked : Asked options text g s)
      (asks : Asks options g s h t) : Asked options text h t

/-- The streams at which a parse of a text asks for statements. -/
def BeginsStatement (options : ParseOptions) (text : List Char) (stream : TokenStream) : Prop :=
  ∃ t, Asked options text .statement t ∧ t.stream = stream

namespace Asking

/-- A rule asks only goals below its own. -/
theorem below_of_asks (hg : g.IsBounded) (ha : Asks options g s h t) :
    h.IsBounded ∧ h.Below t g s := by
  obtain ⟨d, hd, hne⟩ := ha
  by_contra hnot
  refine hne (rule_eq_descend hg fun g' s' hbounded below => hd g' s' ?_)
  rintro ⟨rfl, rfl⟩
  exact hnot ⟨hbounded, below⟩

/-- The token behind an answer does not stand behind a dot. -/
theorem isFree_of_descend {u : ParseState} {r : g.Result} (hstop : g.stopsAtDot = false)
    (hs : s.IsFree) (h : descend options g s = .ok r u) : u.IsFree := by
  refine (descend_induction (I := fun g s _ u => (g.IsBounded → g.Traces s u) ∧
    (g.stopsAtDot = false → s.IsFree → u.IsFree)) ?_ g s r u h).2 hstop hs
  intro d hd g s r u h
  refine ⟨fun hg => Trail.traces_of_rule (fun g s r u h => (hd g s r u h).1) hg h, ?_⟩
  intro hstop hs
  -- Here it does not matter where operands are asked for.
  have hsuits : g.Suits (fun _ => True) s := ⟨hs, hstop, fun _ => .inr trivial⟩
  have hsame : Same (rule options d g) (rule options d g) s := by
    refine same_rule (fun g t hsuits => ?_) (fun s r u h => ?_) hsuits fun _ => .inr trivial
    · exact .of_isFree fun r u h => (hd g t r u h).2 hsuits.stops hsuits.free
    · exact ((hd _ s r u h).1 trivial).2
  exact hsame.2 r u h

/-- The answer to a goal is settled by the answers to the goals that may be asked. -/
theorem rule_eq_of_suits {begins : TokenStream → Prop} {d : Descent} (hbounded : g.IsBounded)
    (hg : g.Suits begins s) (hstatement : g = .statement → s.Hosts begins)
    (hd : ∀ h t, h.Suits begins t → d h t = descend options h t) :
    rule options d g s = descend options g s := by
  have hrule : rule options (descend options) g s = descend options g s :=
    rule_eq_descend hbounded fun _ _ _ _ => rfl
  have hsame : Same (rule options (descend options) g) (rule options d g) s := by
    refine same_rule (fun h t hsuits => ?_) (fun s r u h => ?_) hg hstatement
    · exact ⟨hd h t hsuits, fun r u => isFree_of_descend hsuits.stops hsuits.free⟩
    · exact (descend_induction (I := fun g s _ u => g.IsBounded → g.Traces s u)
        (fun d ht g s r u h hg => Trail.traces_of_rule ht hg h) _ s r u h trivial).2
  rw [hsame.1, hrule]

/-- All that is asked may be asked there. -/
theorem suits_of_asked (ha : Asked options text g s) :
    g.IsBounded ∧ g.Suits (BeginsStatement options text) s := by
  induction ha with
  | program begins =>
    obtain ⟨stream, hr, rfl⟩ := begins
    refine ⟨trivial, ⟨.eof, _, by decide, TokenStream.liesBehind_first hr⟩, rfl, ?_⟩
    exact False.elim
  | @goal g h s t asked asks ih =>
    obtain ⟨hbounded, hsuits⟩ := ih
    refine ⟨(below_of_asks hbounded asks).1, ?_⟩
    obtain ⟨d, hd, hne⟩ := asks
    by_contra hnot
    refine hne (rule_eq_of_suits hbounded hsuits ?_ fun g' s' hsuits => hd g' s' ?_)
    · rintro rfl
      exact .inr ⟨s, asked, rfl⟩
    · rintro ⟨rfl, rfl⟩
      exact hnot hsuits

end Asking

/-- Where an operand is asked for, a regular expression may begin, unless a statement begins there,
or the token before is `++` or `--`, or the name `yield` or `of`. -/
theorem isLed_of_asked (ha : Asked options text g t) (hg : g.BeginsOperand) :
    t.IsLed ∨ BeginsStatement options text t.stream :=
  (Asking.suits_of_asked ha).2.hosts hg

/-- Only for these reasons a slash divides where an operand is asked for. -/
theorem misread_of_division (ha : Asked options text g t) (hg : g.BeginsOperand)
    (hdivision : IsDivision t.kind t.stream.token.value) :
    BeginsStatement options text t.stream ∨ ∃ w, TokenStream.Step w t.stream ∧
      (w.token.kind = .incDec ∨ w.token.IntroducesOperand) := by
  rcases isLed_of_asked ha hg with ⟨w, hstep, hallowed | hword⟩ | hbegins
  · exact absurd hdivision (TokenStream.not_isDivision_of_allowed hstep hallowed)
  · exact .inr ⟨w, hstep, hword⟩
  · exact .inl hbegins

/-- Behind the name `of` a slash divides unless a parenthesis stands before it. -/
example : (parse {} "for (x of (/r/));".toList).result.isOk = true ∧
    (parse {} "for (x of /r/);".toList).result.isOk = false := by
  decide +kernel

end EcmaTree
