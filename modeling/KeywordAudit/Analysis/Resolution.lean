import KeywordAudit.Analysis.Inspection
import KeywordAudit.Analysis.RootSearch

/-!
# Root caller resolution

The methods of the hits are traced to their root callers, each method once, and the classes of the
root callers are collected.
-/

namespace KeywordAudit

/-- The root callers of the traced methods, and the classes that declare root callers. -/
structure Resolution where
  /-- The traced methods in increasing order, each with its root callers. -/
  roots : List (MethodId × List MethodId) := []
  classes : NameSet := NameSet.empty
deriving Inhabited

namespace Resolution

/-- Whether a method was traced. -/
def isTraced (r : Resolution) (id : MethodId) : Bool :=
  (r.roots.lookup id).isSome

/-- The root callers of a traced method; none for any other. -/
def rootsFor (r : Resolution) (id : MethodId) : List MethodId :=
  (r.roots.lookup id).getD []

/-- Puts an entry at its place in a list that is ordered by method. -/
def insertEntry (id : MethodId) (roots : List MethodId) :
    List (MethodId × List MethodId) → List (MethodId × List MethodId)
  | [] => [(id, roots)]
  | (other, known) :: rest =>
    if id < other then (id, roots) :: (other, known) :: rest
    else (other, known) :: insertEntry id roots rest

/-- The names of the classes that declare the given methods. -/
def declaringNames (view : ProgramView) (ids : List MethodId) : List String :=
  ids.filterMap fun id => (view.declaringClass id).map ClassDecl.name

/-- The events about methods that no class declares. -/
def classlessEvents (view : ProgramView) (ids : List MethodId) : List Event :=
  ids.filterMap fun id =>
    match view.declaringClass id with
    | some _ => none
    | none => some (.rootWithoutClass id)

/-- Searches the root callers of a method. -/
def search (view : ProgramView) (fin : view.CallersFinite) (id : MethodId) :
    List MethodId × List Event :=
  let roots := view.rootCallers id (fin id)
  (roots, [.rootsFound roots.length id])

/-- Traces a method, unless it was traced before. -/
def trace (view : ProgramView) (fin : view.CallersFinite) (state : Resolution × Array Event)
    (id : MethodId) : Resolution × Array Event :=
  let (r, events) := state
  if r.isTraced id then state
  else
    let (roots, searchEvents) := search view fin id
    ({ roots := insertEntry id roots r.roots
       classes := r.classes.insertAll (declaringNames view roots) },
     events ++ (searchEvents ++ classlessEvents view roots))

/-- Traces methods in the given order. -/
def traceAll (view : ProgramView) (fin : view.CallersFinite) (ids : List MethodId) :
    Resolution × List Event :=
  let (r, events) := ids.foldl (trace view fin) ({}, #[])
  (r, events.toList ++ [.resolved r.roots.length r.classes.size])

/-- Traces the methods of all hits. -/
def run (view : ProgramView) (fin : view.CallersFinite) (hits : List Hit) :
    Resolution × List Event :=
  traceAll view fin (hits.map Hit.method)

end Resolution
end KeywordAudit
