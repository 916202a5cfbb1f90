import KeywordAudit.Config.Basic
import KeywordAudit.Format.Schema

/-!
# The form of configuration files

The names under which settings are given.  A record may lack any of its fields.
-/

namespace KeywordAudit

variable {R : Type → Type} [Format R]

/-! ## Inspection -/

/-- An inspection policy that is being read. -/
structure PolicyDraft where
  interestedApiOnly : Option Bool := none
  apiInLibrariesOnly : Option Bool := none
  recordContainerSymbol : Option Bool := none
  containerSymbol : Option String := none

/-- Puts the given settings in place of those of a policy. -/
def PolicyDraft.over (d : PolicyDraft) (base : Policy) : Policy where
  interestedApiOnly := d.interestedApiOnly.getD base.interestedApiOnly
  apiInLibrariesOnly := d.apiInLibrariesOnly.getD base.apiInLibrariesOnly
  recordContainerSymbol := d.recordContainerSymbol.getD base.recordContainerSymbol
  containerSymbol := d.containerSymbol.getD base.containerSymbol

/-- The fields of an inspection policy. -/
def PolicyDraft.fields : List (Field R PolicyDraft) :=
  [ .optional "interested_api_only" PolicyDraft.interestedApiOnly
      (fun v d => { d with interestedApiOnly := some v }) Format.flag,
    .optional "api_in_libraries_only" PolicyDraft.apiInLibrariesOnly
      (fun v d => { d with apiInLibrariesOnly := some v }) Format.flag,
    .optional "record_container_symbol" PolicyDraft.recordContainerSymbol
      (fun v d => { d with recordContainerSymbol := some v }) Format.flag,
    .optional "container_symbol" PolicyDraft.containerSymbol
      (fun v d => { d with containerSymbol := some v }) Format.text ]

/-- Reads the settings of the inspection. -/
def Policy.reader : R Policy :=
  Format.record PolicyDraft.fields {} fun d => some (d.over {})

/-! ## Classification -/

/-- A classification that is being read. -/
structure ClassificationDraft where
  interestingApis : Option (List String) := none
  libraryPackages : Option (List String) := none
  syntheticEntryClasses : Option (List String) := none

/-- The classification, with defaults for what is not given. -/
def ClassificationDraft.finish (d : ClassificationDraft) : Classification :=
  let default : Classification := {}
  { interestingApis := d.interestingApis.getD default.interestingApis
    libraryPackages := d.libraryPackages.getD default.libraryPackages
    syntheticEntryClasses := d.syntheticEntryClasses.getD default.syntheticEntryClasses }

/-- Reads a classification. -/
def Classification.reader : R Classification :=
  Format.record
    [ .optional "interesting_apis" ClassificationDraft.interestingApis
        (fun v d => { d with interestingApis := some v }) (Format.list Format.text),
      .optional "library_packages" ClassificationDraft.libraryPackages
        (fun v d => { d with libraryPackages := some v }) (Format.list Format.text),
      .optional "synthetic_entry_classes" ClassificationDraft.syntheticEntryClasses
        (fun v d => { d with syntheticEntryClasses := some v }) (Format.list Format.text) ]
    {} fun d => some d.finish

/-! ## The whole -/

/-- Settings of the report that are being read. -/
structure ReportDraft where
  format : Option String := none

/-- Reads the settings of the report. -/
def ReportSettings.reader : R ReportSettings :=
  Format.record
    [ .optional "format" ReportDraft.format (fun v d => { d with format := some v })
        Format.text ]
    {} fun d => some ((d.format.map ReportSettings.mk).getD {})

/-- A configuration that is being read. -/
structure ConfigDraft where
  inspection : Option Policy := none
  classification : Option Classification := none
  report : Option ReportSettings := none

/-- Reads a configuration. -/
def Config.reader : R Config :=
  Format.record
    [ .optional "inspection" ConfigDraft.inspection
        (fun v d => { d with inspection := some v }) Policy.reader,
      .optional "classification" ConfigDraft.classification
        (fun v d => { d with classification := some v }) Classification.reader,
      .optional "report" ConfigDraft.report
        (fun v d => { d with report := some v }) ReportSettings.reader ]
    {} fun d => some {
      inspection := d.inspection.getD {}
      classification := d.classification.getD {}
      report := d.report.getD {} }

end KeywordAudit
