import EcmaTree.Command.Job
import EcmaTree.Proofs.Grammar.Clear

/-!
# Reports point at the error

A diagnostic has its place from the parse, which counts lines as it reads, and a report looks the
line up in the line map of the source. Since the place is exact and splits no line break, it lies
in that line or at one of its ends. So the report shows the line, and the column in bytes divides
the line between two characters.
-/

namespace EcmaTree

variable {earlier later : List Line} {before behind ending source : List Char}

/-- An exact place that splits no line break lies in one line of the text, or at one of its ends. -/
theorem Place.IsClear.exists_line {p : Place} (h : p.IsClear source) :
    ∃ earlier before behind ending later,
      AreLines (earlier ++ ⟨before ++ behind, ending⟩ :: later) source ∧
      p.offset = byteLength (earlier.flatMap Line.written ++ before) ∧
      p.position = ⟨earlier.length + 1, byteLength before⟩ := by
  obtain ⟨front, after, htext, hoffset, hcut⟩ := h.cut
  obtain ⟨lines, hlines⟩ := exists_areLines source
  rw [htext] at hlines
  obtain ⟨earlier, before, behind, ending, later, rfl, rfl⟩ := hlines.exists_line hcut
  rw [← htext] at hlines
  refine ⟨earlier, before, behind, ending, later, hlines, hoffset, ?_⟩
  rw [h.exact.position_eq, hoffset, LineMap.position_of_areLines hlines]

theorem Style.paintIf_false (style : Style) (shown : String) : style.paintIf false shown = shown :=
  rfl

namespace Diagnostic

variable {d : Diagnostic}

/-- The report of a diagnostic points at the place with the lines `earlier` before its line and
`before` in front of it on its line. Without colours it has the number of the line, the column that
counts characters from one, the line without its ending, and a caret behind one blank for each
character of `before`, which is a tab where the line has a tab. The column in bytes divides the
line there too. -/
structure PointsAt (d : Diagnostic) (source : List Char) (earlier : List Line)
    (before behind ending : List Char) (later : List Line) : Prop where
  lines : AreLines (earlier ++ ⟨before ++ behind, ending⟩ :: later) source
  offset : d.place.offset = byteLength (earlier.flatMap Line.written ++ before)
  line : d.place.position.line = earlier.length + 1
  column : takeBytes d.place.position.column (before ++ behind) = some before
  report : d.report false source =
    d.severity.word ++ "[" ++ toString d.code ++ "]: " ++ d.message ++ " at " ++ d.file ++ ":" ++
      toString (earlier.length + 1) ++ ":" ++ toString (before.length + 1) ++
    "\n " ++ toString (earlier.length + 1) ++ " | " ++ String.ofList (before ++ behind) ++
    "\n " ++ String.ofList (List.replicate (toString (earlier.length + 1)).length ' ') ++
      " | " ++ String.ofList (before.map fun c => if c = '\t' then '\t' else ' ') ++ "^"

/-- The excerpt is the line of the place, divided there. -/
theorem excerpt?_of_areLines
    (h : AreLines (earlier ++ ⟨before ++ behind, ending⟩ :: later) source)
    (hp : d.place.position = ⟨earlier.length + 1, byteLength before⟩) :
    d.excerpt? source = some ⟨before ++ behind, before⟩ := by
  unfold excerpt?
  rw [hp, LineMap.lineText?_of_areLines h, Option.map_some, takeBytes_append, Option.getD_some]

theorem pointsAt_of_areLines
    (h : AreLines (earlier ++ ⟨before ++ behind, ending⟩ :: later) source)
    (ho : d.place.offset = byteLength (earlier.flatMap Line.written ++ before))
    (hp : d.place.position = ⟨earlier.length + 1, byteLength before⟩) :
    d.PointsAt source earlier before behind ending later where
  lines := h
  offset := ho
  line := by rw [hp]
  column := by rw [hp, takeBytes_append]
  report := by
    have hindent : caretIndent before = before.map fun c => if c = '\t' then '\t' else ' ' := by
      simp [caretIndent]
    rw [show "]: " = "]" ++ ": " by decide]
    unfold Diagnostic.report
    rw [excerpt?_of_areLines h hp]
    dsimp only
    unfold heading location snippet
    dsimp only
    rw [hp, hindent]
    simp only [Style.paintIf_false, String.append_assoc]

end Diagnostic

theorem Job.of_failed {job : Job} {file : String} {d : Diagnostic}
    (h : job.run file source = .failed d) :
    ∃ e, (parse job.options source).result = .error (.fault e) ∧ d = e.diagnostic file := by
  unfold run at h
  dsimp only at h
  split at h
  · cases h
  · rename_i e he
    cases h
    exact ⟨e, he, rfl⟩
  · cases h

/-- A job that fails gives the diagnostic of the fault in its source, and the report of the
diagnostic points at the place of the fault. -/
theorem pointsAt_of_failed {job : Job} {file : String} {d : Diagnostic}
    (h : job.run file source = .failed d) :
    ∃ e, (parse job.options source).result = .error (.fault e) ∧ d = e.diagnostic file ∧
      ∃ earlier before behind ending later,
        d.PointsAt source earlier before behind ending later := by
  obtain ⟨e, he, rfl⟩ := Job.of_failed h
  obtain ⟨earlier, before, behind, ending, later, hlines, hoffset, hposition⟩ :=
    (Grammar.isClear_of_fault he).exists_line
  exact ⟨e, he, rfl, earlier, before, behind, ending, later,
    Diagnostic.pointsAt_of_areLines hlines hoffset hposition⟩

/-- The diagnostic of a job, if it fails. -/
def Outcome.diagnostic? : Outcome → Option Diagnostic
  | .failed d => some d
  | _ => none

theorem Outcome.of_diagnostic? {o : Outcome} {d : Diagnostic} (h : o.diagnostic? = some d) :
    o = .failed d := by
  cases o with
  | failed d' => exact congrArg Outcome.failed (Option.some.inj h)
  | _ => cases h

/-- A fault behind a tab and letters of two bytes, on a line that a carriage return and a line feed
set off from the first one. -/
theorem pointsAt_of_failed_tab : ∃ d : Diagnostic,
    Job.run ⟨{}, .ast⟩ "a.js" "x;\r\n\tö = é é\n".toList = .failed d ∧
    d.place = ⟨13, 2, 9⟩ ∧
    ∃ e, (parse {} "x;\r\n\tö = é é\n".toList).result = .error (.fault e) ∧
      d = e.diagnostic "a.js" ∧ ∃ earlier before behind ending later,
        d.PointsAt "x;\r\n\tö = é é\n".toList earlier before behind ending later := by
  have hrun := Outcome.of_diagnostic? (o := Job.run ⟨{}, .ast⟩ "a.js" "x;\r\n\tö = é é\n".toList)
    (d := ⟨"a.js", ⟨13, 2, 9⟩, "Unexpected token", .error, 1001⟩) (by decide +kernel)
  have hpoints := pointsAt_of_failed hrun
  exact ⟨_, hrun, rfl, hpoints⟩

example : (ParseError.diagnostic ⟨.unexpectedToken, 13, 2, 9⟩ "a.js").report false
    "x;\r\n\tö = é é\n".toList =
      "error[1001]: Unexpected token at a.js:2:8\n 2 | \tö = é é\n   | \t      ^" := by
  decide +kernel

end EcmaTree
