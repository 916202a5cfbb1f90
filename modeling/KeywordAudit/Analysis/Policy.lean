import KeywordAudit.Program.Basic

/-!
# Inspection policies

A policy says which statements are searched for keywords and whether statements that use a
container are recorded beside.
-/

namespace KeywordAudit

/-- Which statements are searched, and what is recorded beside. -/
structure Policy where
  /-- Search only statements that call an interesting interface. -/
  interestedApiOnly : Bool := true
  /-- Of those, search only the ones whose target belongs to a library. -/
  apiInLibrariesOnly : Bool := false
  /-- Record the statements that use the container. -/
  recordContainerSymbol : Bool := false
  /-- The text by which the container is known. -/
  containerSymbol : String := "java.util.HashMap"
deriving DecidableEq, Repr, Inhabited

/-- Why a statement was searched. -/
inductive Scope where
  | anyStatement
  | interestingApi
  | libraryApi
deriving DecidableEq, Repr, Inhabited

/-- The name of a scope in reports. -/
def Scope.name : Scope → String
  | anyStatement => "any-statement"
  | interestingApi => "interesting-api"
  | libraryApi => "library-api"

namespace Policy

/-- The scope under which a statement is searched; none if it is not searched. -/
def scopeOf (p : Policy) (s : Statement) : Option Scope :=
  if p.interestedApiOnly then
    match s.invocation with
    | none => none
    | some call =>
      if !call.interesting then none
      else if p.apiInLibrariesOnly then
        if call.library then some .libraryApi else none
      else some .interestingApi
  else some .anyStatement

/-- Whether a statement is searched. -/
def isEligible (p : Policy) (s : Statement) : Bool :=
  (p.scopeOf s).isSome

end Policy
end KeywordAudit
