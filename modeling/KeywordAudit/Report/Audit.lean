import KeywordAudit.Analysis.Resolution
import KeywordAudit.Descriptor

/-!
# What is reported

The results of an analysis together with the program they are about, and the names that methods
have in reports.
-/

namespace KeywordAudit

/-- The results of one analysis. -/
structure Audit where
  view : ProgramView
  policy : Policy
  inspection : Inspection
  resolution : Resolution

/-- The analysis of a program. -/
def Program.audit (p : Program) (keywords : KeywordList) (policy : Policy) : Audit × List Event :=
  let (inspection, inspectionEvents) := Inspection.run p.view keywords policy
  let (resolution, resolutionEvents) := Resolution.run p.view p.callersFinite inspection.hits
  (⟨p.view, policy, inspection, resolution⟩, inspectionEvents ++ resolutionEvents)

namespace ProgramView

/-- The short name of a method, class and method name; none if the signature is no descriptor. -/
def shortName (v : ProgramView) (id : MethodId) : Option String := do
  let method ← v.method id
  let descriptor ← Descriptor.parse? method.signature
  let owner := (v.declaringClass id).map ClassDecl.simpleName
  return s!"{owner.getD descriptor.className}.{descriptor.name}"

/-- The signature of a method; a method that is not known has a replacement. -/
def signatureOr (v : ProgramView) (replacement : String) (id : MethodId) : String :=
  ((v.method id).map Method.signature).getD replacement

end ProgramView

/-- The formats of reports. -/
inductive ReportFormat where
  | terminal
  | json
deriving DecidableEq, Repr, Inhabited

/-- An upper case letter as a lower case one. -/
def lowerLetter (c : Char) : Char :=
  if 'A' ≤ c ∧ c ≤ 'Z' then Char.ofNat (c.toNat + 32) else c

/-- The format of a name in any case. -/
def ReportFormat.ofName? (name : String) : Option ReportFormat :=
  match String.ofList (name.toList.map lowerLetter) with
  | "terminal" | "text" => some .terminal
  | "json" => some .json
  | _ => none

end KeywordAudit
