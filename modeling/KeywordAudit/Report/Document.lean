import KeywordAudit.Json.Printer
import KeywordAudit.Report.Audit

/-!
# The JSON report

The report as a record, and the JSON value it is written as.
-/

namespace KeywordAudit

/-- A hit as it is reported. -/
structure HitRecord where
  keyword : String
  method : String
  methodName : Option String
  className : Option String
  index : Nat
  text : String
  scope : String
  rootCallers : List String
deriving DecidableEq, Repr, Inhabited

/-- The figures at the end of a report. -/
structure Summary where
  totalHits : Nat
  distinctKeywords : Nat
  methodsWithHits : Nat
  rootCallerClasses : Nat
deriving DecidableEq, Repr, Inhabited

/-- A report. -/
structure ReportDocument where
  policy : Policy
  hits : List HitRecord
  keywordsHit : List String
  packageKeywords : List String
  /-- Only where they are recorded. -/
  containerStatements : Option (List String)
  rootCallerClasses : List String
  summary : Summary
deriving DecidableEq, Repr, Inhabited

namespace ReportDocument

/-- The name of a method in the report: its signature, or its label if it is not known. -/
def methodText (v : ProgramView) (id : MethodId) : String :=
  v.signatureOr (methodLabel id) id

/-- A hit as it is reported. -/
def hitRecord (a : Audit) (h : Hit) : HitRecord where
  keyword := h.keyword
  method := methodText a.view h.method
  methodName := a.view.shortName h.method
  className := (a.view.declaringClass h.method).map ClassDecl.name
  index := h.index
  text := h.text
  scope := h.scope.name
  rootCallers := (a.resolution.rootsFor h.method).map (methodText a.view)

/-- The report of an analysis. -/
def ofAudit (a : Audit) : ReportDocument where
  policy := a.policy
  hits := a.inspection.hits.map (hitRecord a)
  keywordsHit := a.inspection.keywordsHit.toList
  packageKeywords := a.inspection.packageKeywords.toList
  containerStatements :=
    if a.policy.recordContainerSymbol then some a.inspection.containerStatements else none
  rootCallerClasses := a.resolution.classes.toList
  summary := {
    totalHits := a.inspection.hits.length
    distinctKeywords := a.inspection.keywordsHit.size
    methodsWithHits := (distinct (a.inspection.hits.map Hit.method)).length
    rootCallerClasses := a.resolution.classes.size }

/-! ## JSON -/

/-- Writes a policy. -/
def policyJson (p : Policy) : Json :=
  .object [("interested_api_only", .bool p.interestedApiOnly),
    ("api_in_libraries_only", .bool p.apiInLibrariesOnly),
    ("record_container_symbol", .bool p.recordContainerSymbol),
    ("container_symbol", .string p.containerSymbol)]

/-- A text that may be absent. -/
def textOrNull : Option String → Json
  | none => .null
  | some s => .string s

/-- Writes a hit. -/
def hitJson (h : HitRecord) : Json :=
  .object <|
    [("keyword", .string h.keyword), ("method", .string h.method)]
      ++ (h.methodName.map fun name => ("method_name", Json.string name)).toList
      ++ [("class", textOrNull h.className), ("statement_index", .nat h.index),
        ("statement", .string h.text), ("scope", .string h.scope),
        ("root_callers", .strings h.rootCallers)]

/-- Writes the figures. -/
def summaryJson (s : Summary) : Json :=
  .object [("total_hits", .nat s.totalHits), ("distinct_keywords", .nat s.distinctKeywords),
    ("methods_with_hits", .nat s.methodsWithHits),
    ("root_caller_classes", .nat s.rootCallerClasses)]

/-- The version of the report's form. -/
def formVersion : String := "1.0"

/-- Writes a report. -/
def toJson (d : ReportDocument) : Json :=
  .object <|
    [("version", .string formVersion), ("policy", policyJson d.policy),
      ("hits", .array (d.hits.map hitJson)), ("keywords_hit", .strings d.keywordsHit),
      ("keywords_in_package", .strings d.packageKeywords)]
      ++ (d.containerStatements.map fun s =>
        ("container_symbol_statements", Json.strings s)).toList
      ++ [("root_caller_classes", .strings d.rootCallerClasses),
        ("summary", summaryJson d.summary)]

/-- The text of a report. -/
def render (d : ReportDocument) : String := d.toJson.pretty

end ReportDocument
end KeywordAudit
