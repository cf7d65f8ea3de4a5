import Mathlib
import ImpAsm.Command.Run

namespace ImpAsm

/-- The words of a report around what it is about: before the context, between the context and the
reason, and before every line of the reason. -/
structure ReportLayout where
  opening : String
  between : String
  margin : String

/-- The text names the context, and its last lines are those of the reason, each behind the margin.
A reason of one line stands there as it is. -/
def ReportLayout.Describes (layout : ReportLayout) (context reason text : String) : Prop :=
  ∃ lines : List String, (∀ line ∈ lines, '\n' ∉ line.toList) ∧
    reason ++ "\n" = String.join (lines.map (· ++ "\n")) ∧
    text = layout.opening ++ context ++ layout.between ++
      String.join (lines.map (layout.margin ++ · ++ "\n"))

/-- What a run relies on: a failure is reported with its context and the lines of its reason. -/
structure Interface.Lawful (ui : Interface) (layout : ReportLayout) : Prop where
  report : ∀ context reason, layout.Describes context reason (ui.report context reason)

/-- The lines of a text, and what becomes of them behind a margin. -/
theorem exists_lines (margin cs : List Char) :
    ∃ line lines, (∀ l ∈ line :: lines, '\n' ∉ l) ∧
      cs ++ ['\n'] = line ++ '\n' :: lines.flatMap (· ++ ['\n']) ∧
      cs.flatMap (fun c => if c = '\n' then c :: margin else [c]) ++ ['\n'] =
        line ++ '\n' :: lines.flatMap (margin ++ · ++ ['\n']) := by
  induction cs with
  | nil => exact ⟨[], [], by simp, rfl, rfl⟩
  | cons c cs ih =>
    obtain ⟨line, lines, hlines, hcs, hmargin⟩ := ih
    by_cases hc : c = '\n'
    · -- the first line is empty, and the others move down
      refine ⟨[], line :: lines, ?_, ?_, ?_⟩
      · simpa using hlines
      · simp [hc, hcs]
      · simp [hc, hmargin]
    · refine ⟨c :: line, lines, ?_, ?_, ?_⟩
      · simpa [Ne.symm hc] using hlines
      · simp [hcs]
      · simp [hc, hmargin]

/-- The layout of the reports on a terminal. -/
def ReportLayout.terminal : ReportLayout := ⟨"Error: ", "\n\nCaused by:\n", "    "⟩

theorem Interface.lawful_terminal : Interface.terminal.Lawful .terminal where
  report := by
    intro context reason
    obtain ⟨line, lines, hlines, hreason, hmargin⟩ := exists_lines "    ".toList reason.toList
    refine ⟨(line :: lines).map String.ofList, ?_, ?_, ?_⟩
    · simpa using hlines
    · rw [← String.toList_inj]
      simpa [String.toList_join, List.flatMap_map] using hreason
    · rw [← String.toList_inj]
      simpa [terminal, ReportLayout.terminal, failureText, indented, String.toList_join,
        List.flatMap_map] using hmargin

end ImpAsm
