import KeywordAudit.Report.Audit
import KeywordAudit.Report.Ink

/-!
# The terminal report

The hits stand under their methods, and the methods in the order of their numbers; each method is
followed by its root callers, if they are shown.  Lists of names and figures come after.
-/

namespace KeywordAudit
namespace TerminalReport

/-! ## Inks -/

/-- The titles of the lists. -/
def title : Ink := { weight := .bold, colour := some .yellow }

/-- The news that nothing was found. -/
def good : Ink := { weight := .bold, colour := some .green }

/-- The methods with hits. -/
def heading : Ink := { weight := .bold, colour := some .cyan }

/-- The keyword of a hit. -/
def keyword : Ink := { weight := .bold, colour := some .red }

/-- The short name of a root caller. -/
def label : Ink := { weight := .bold, colour := some .white }

/-- A root caller without a short name. -/
def name : Ink := { colour := some .white }

/-- The figures of the summary. -/
def figure : Ink := { colour := some .yellow }

/-- The last figure of the summary. -/
def lastFigure : Ink := { colour := some .cyan }

/-- What stands back. -/
def faint : Ink := { weight := .dimmed }

/-! ## Hits by method -/

/-- The hits in one method. -/
structure Group where
  method : MethodId
  hits : List Hit
deriving DecidableEq, Repr, Inhabited

/-- Puts a hit behind those of its method, which has its place by number. -/
def insertHit (h : Hit) : List Group → List Group
  | [] => [⟨h.method, [h]⟩]
  | g :: groups =>
    if h.method = g.method then ⟨g.method, g.hits ++ [h]⟩ :: groups
    else if h.method < g.method then ⟨h.method, [h]⟩ :: g :: groups
    else g :: insertHit h groups

/-- The hits by method, methods in the order of their numbers. -/
def groups (hits : List Hit) : List Group :=
  hits.foldl (fun gs h => insertHit h gs) []

/-! ## Lines -/

/-- What stands for a method that is not known. -/
def unknownMethod : String := "<unknown method>"

/-- The line of a hit. -/
def hitLine (h : Hit) : Line :=
  [⟨"  ", Ink.plain⟩, ⟨s!"#{h.index}", faint⟩, ⟨" [", Ink.plain⟩, ⟨h.keyword, keyword⟩,
    ⟨"] ", Ink.plain⟩, ⟨h.text, Ink.plain⟩]

/-- The line of a root caller. -/
def rootLine (v : ProgramView) (id : MethodId) : Line :=
  let signature := v.signatureOr unknownMethod id
  let arrow : Line := [⟨"    ", Ink.plain⟩, ⟨"←", faint⟩, ⟨" ", Ink.plain⟩]
  match v.shortName id with
  | some short => arrow ++ [⟨short, label⟩, ⟨" ", Ink.plain⟩, ⟨signature, faint⟩]
  | none => arrow ++ [⟨signature, name⟩]

/-- The line of a method with hits. -/
def headingLine (v : ProgramView) (id : MethodId) : Line :=
  Line.single (v.signatureOr unknownMethod id) heading

/-- The lines of a method with hits. -/
def groupLines (a : Audit) (showRoots : Bool) (g : Group) : List Line :=
  headingLine a.view g.method :: g.hits.map hitLine
    ++ (if showRoots then (a.resolution.rootsFor g.method).map (rootLine a.view) else [])

/-- The lines of all hits. -/
def hitLines (a : Audit) (showRoots : Bool) : List Line :=
  let hits := a.inspection.hits
  if hits.isEmpty then
    [Line.blank, Line.single "No statements with keywords found." good, Line.blank]
  else
    [Line.blank, Line.single s!"Statements with keywords ({hits.length}):" title]
      ++ (groups hits).flatMap (groupLines a showRoots) ++ [Line.blank]

/-- The lines of a list of names. -/
def sectionLines (header : String) (items : List String) : List Line :=
  Line.single s!"{header} ({items.length}):" title
    :: (if items.isEmpty then [[⟨"  ", Ink.plain⟩, ⟨"(none)", faint⟩]] else [])
    ++ items.map (fun item => Line.single ("  " ++ item) Ink.plain) ++ [Line.blank]

/-- The remark on what was searched, if there is one. -/
def noteLines (p : Policy) : List Line :=
  if !p.interestedApiOnly then
    [Line.single "Note: API filtering disabled, every statement was inspected" faint]
  else if p.apiInLibrariesOnly then
    [Line.single "Note: library classification is best-effort and may be incomplete" faint]
  else []

/-- The figures. -/
def summaryLines (a : Audit) : List Line :=
  let rule := String.ofList (List.replicate 60 '─')
  let hits := a.inspection.hits.length
  let keywords := a.inspection.keywordsHit.size
  let classes := a.resolution.classes.size
  [Line.single rule faint,
    [⟨"Summary: ", Ink.plain⟩, ⟨s!"{hits} hits", figure⟩, ⟨", ", Ink.plain⟩,
      ⟨s!"{keywords} keywords", figure⟩, ⟨", ", Ink.plain⟩,
      ⟨s!"{classes} root caller classes", lastFigure⟩]]
    ++ noteLines a.policy

/-- The statements that use the container, if they are recorded. -/
def containerLines (a : Audit) : List Line :=
  if a.policy.recordContainerSymbol then
    sectionLines s!"Statements using {a.policy.containerSymbol}" a.inspection.containerStatements
  else []

/-- The whole report. -/
def lines (a : Audit) (showRoots : Bool) : List Line :=
  hitLines a showRoots
    ++ sectionLines "Keywords hit" a.inspection.keywordsHit.toList
    ++ sectionLines "Keywords in package" a.inspection.packageKeywords.toList
    ++ containerLines a
    ++ sectionLines "Root caller classes" a.resolution.classes.toList
    ++ summaryLines a

/-- The text of the report. -/
def render (coloured showRoots : Bool) (a : Audit) : String :=
  Line.renderAll coloured (lines a showRoots)

end TerminalReport
end KeywordAudit
