import Std.Data.HashSet
import KeywordAudit.Analysis.Policy
import KeywordAudit.KeywordList
import KeywordAudit.Program.View
import KeywordAudit.Text.NameSet
import KeywordAudit.Text.Occurs

/-!
# Keyword inspection

One pass over the methods of a view.  It collects the keywords in package names, once for each
class, the statements that use the container, and the hits: keywords that stand in an eligible
statement.
-/

namespace KeywordAudit

/-- When a keyword counts as found in a text. -/
abbrev Matcher := String → String → Bool

namespace Matcher

/-- A keyword is found where it stands as a part of the text. -/
def substring : Matcher := fun text keyword => keyword ≠ "" && Text.contains text keyword

end Matcher

/-- A keyword found in a statement. -/
structure Hit where
  method : MethodId
  index : Nat
  text : String
  keyword : String
  scope : Scope
deriving DecidableEq, Repr, Inhabited

/-- What an inspection found. -/
structure Inspection where
  hits : List Hit := []
  keywordsHit : NameSet := NameSet.empty
  packageKeywords : NameSet := NameSet.empty
  containerStatements : List String := []
deriving Inhabited

namespace Inspection

/-! ## One method -/

/-- The hits in a body, statement by statement and keyword by keyword. -/
def bodyHits (keywords : KeywordList) (policy : Policy) (found : Matcher) (id : MethodId)
    (body : List Statement) : List Hit :=
  body.zipIdx.flatMap fun (s, index) =>
    match policy.scopeOf s with
    | none => []
    | some scope =>
      (keywords.toList.filter (found s.text ·)).map fun k => ⟨id, index, s.text, k, scope⟩

/-- The statements of a body that use the container, if the policy records them. -/
def containerUses (policy : Policy) (body : List Statement) : List String :=
  if policy.recordContainerSymbol && policy.containerSymbol ≠ "" then
    (body.map Statement.text).filter (Text.contains · policy.containerSymbol)
  else []

/-! ## The pass -/

/-- The state of the pass: the classes whose packages were looked at, and the findings so far. -/
structure Pass where
  seen : Std.HashSet ClassId := ∅
  hits : Array Hit := #[]
  keywordsHit : NameSet := NameSet.empty
  packageKeywords : NameSet := NameSet.empty
  containerStatements : Array String := #[]
  events : Array Event := #[]

/-- Looks at the package of a class, unless that was done before. -/
def Pass.inspectClass (view : ProgramView) (keywords : KeywordList) (found : Matcher)
    (pass : Pass) (id : ClassId) : Pass :=
  if pass.seen.contains id then pass
  else
    let pass := { pass with seen := pass.seen.insert id }
    match view.classDecl id with
    | none => pass
    | some c =>
      let words := keywords.toList.filter (found c.package ·)
      { pass with
        packageKeywords := pass.packageKeywords.insertAll words
        events := pass.events ++ words.map fun k => Event.keywordInPackage k c.package }

/-- Looks at a method: the package of its class, then its body. -/
def Pass.inspectMethod (view : ProgramView) (keywords : KeywordList) (policy : Policy)
    (found : Matcher) (pass : Pass) (id : MethodId) : Pass :=
  match view.method id with
  | none => pass
  | some m =>
    let pass := pass.inspectClass view keywords found m.owner
    let hits := bodyHits keywords policy found id (view.statements id)
    { pass with
      hits := pass.hits ++ hits
      keywordsHit := pass.keywordsHit.insertAll (hits.map Hit.keyword)
      containerStatements := pass.containerStatements ++ containerUses policy (view.statements id)
      events := pass.events ++ hits.map fun h => Event.hit h.keyword m.signature h.text }

/-- Inspects all methods of a view; `found` decides when a keyword counts as found. -/
def runWith (view : ProgramView) (keywords : KeywordList) (policy : Policy) (found : Matcher) :
    Inspection × List Event :=
  let pass := view.methods.foldl (Pass.inspectMethod view keywords policy found) {}
  ({ hits := pass.hits.toList
     keywordsHit := pass.keywordsHit
     packageKeywords := pass.packageKeywords
     containerStatements := pass.containerStatements.toList },
   pass.events.toList ++
     [.inspected pass.hits.size pass.keywordsHit.size pass.packageKeywords.size])

/-- Inspects all methods of a view for keywords that stand as parts of a text. -/
def run (view : ProgramView) (keywords : KeywordList) (policy : Policy) :
    Inspection × List Event :=
  runWith view keywords policy .substring

end Inspection
end KeywordAudit
