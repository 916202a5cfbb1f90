import KeywordAudit.FileTree
import KeywordAudit.Report.Document
import KeywordAudit.Report.Terminal

/-!
# Giving a report out

The terminal report is printed.  The JSON report is printed too, or written to a file if one is
named; then only a line about it is printed.
-/

namespace KeywordAudit

/-- How a report is given out. -/
structure Reporter where
  format : ReportFormat := .terminal
  output : Option String := none
  showRoots : Bool := true
  coloured : Bool := false
deriving Repr, Inhabited

/-- Text that was printed, and the files after that. -/
structure Printed where
  text : String
  files : FileTree
deriving Inhabited

/-- Gives a report out.  Nothing is printed when the file cannot be written. -/
def Reporter.report (r : Reporter) (files : FileTree) (a : Audit) : Except FileError Printed :=
  match r.format with
  | .terminal => .ok ⟨TerminalReport.render r.coloured r.showRoots a, files⟩
  | .json =>
    let text := (ReportDocument.ofAudit a).render
    match r.output with
    | none => .ok ⟨text ++ "\n", files⟩
    | some path =>
      match files.write path text with
      | .error e => .error e
      | .ok files => .ok ⟨s!"Report written to: {path}\n", files⟩

end KeywordAudit
