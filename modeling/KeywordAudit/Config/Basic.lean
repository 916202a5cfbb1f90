import KeywordAudit.Analysis.Policy
import KeywordAudit.Classification

/-!
# Configuration

What a configuration file can set; everything has a default.
-/

namespace KeywordAudit

/-- How the findings are reported. -/
structure ReportSettings where
  /-- The name of the report's format. -/
  format : String := "terminal"
deriving DecidableEq, Repr, Inhabited

/-- All settings. -/
structure Config where
  inspection : Policy := {}
  classification : Classification := {}
  report : ReportSettings := {}
deriving DecidableEq, Repr, Inhabited

end KeywordAudit
