import KeywordAudit.Config.Basic
import KeywordAudit.Report.Audit

/-!
# Options of the command line

What a command line can ask for, and how it changes a configuration.
-/

namespace KeywordAudit

/-- What a command line asks for. -/
structure Options where
  model : String
  keywords : String
  config : Option String := none
  recordContainerSymbol : Bool := false
  allStatements : Bool := false
  librariesOnly : Bool := false
  containerSymbol : Option String := none
  format : Option ReportFormat := none
  output : Option String := none
  noRoots : Bool := false
  verbose : Bool := false
  quiet : Bool := false
deriving Repr, Inhabited

/-- The policy that a configured one becomes. -/
def Options.adjust (o : Options) (p : Policy) : Policy where
  interestedApiOnly := p.interestedApiOnly && !o.allStatements
  apiInLibrariesOnly := p.apiInLibrariesOnly || o.librariesOnly
  recordContainerSymbol := p.recordContainerSymbol || o.recordContainerSymbol
  containerSymbol := o.containerSymbol.getD p.containerSymbol

/-- The configuration that a configured one becomes. -/
def Options.configure (o : Options) (c : Config) : Config :=
  { c with inspection := o.adjust c.inspection }

end KeywordAudit
