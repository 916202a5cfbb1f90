import KeywordAudit.Increasing
import KeywordAudit.Program.Basic

/-!
# Call graphs

For each method the set of its direct callers, as an increasing list.  A call that is recorded
twice counts once.
-/

namespace KeywordAudit

/-- The direct callers of each method. -/
structure CallGraph where
  incoming : Array (List MethodId)
deriving Repr, Inhabited

namespace CallGraph

/-- The graph of the given number of methods, without calls. -/
def empty (size : Nat) : CallGraph := ⟨Array.replicate size []⟩

/-- Records a call; a callee outside the graph is ignored. -/
def addCall (g : CallGraph) (call : MethodId × MethodId) : CallGraph :=
  ⟨g.incoming.modify call.2 (insertIncreasing call.1)⟩

/-- The graph of a list of calls, each a caller and a callee. -/
def ofCalls (size : Nat) (calls : List (MethodId × MethodId)) : CallGraph :=
  calls.foldl addCall (empty size)

/-- The direct callers of a method in increasing order; none for a number without a method. -/
def callers (g : CallGraph) (id : MethodId) : List MethodId :=
  g.incoming[id]?.getD []

/-- The number of distinct calls. -/
def callCount (g : CallGraph) : Nat :=
  g.incoming.toList.foldr (fun callers n => callers.length + n) 0

@[simp] theorem callers_empty (size id : Nat) : (empty size).callers id = [] := by
  simp only [callers, empty, Array.getElem?_replicate]
  split <;> rfl

@[simp] theorem size_addCall (g : CallGraph) (call : MethodId × MethodId) :
    (g.addCall call).incoming.size = g.incoming.size := by
  simp [addCall]

/-- A recorded call is seen at its callee, if the callee is in the graph. -/
theorem mem_callers_addCall {g : CallGraph} {call : MethodId × MethodId} {c id : MethodId} :
    c ∈ (g.addCall call).callers id ↔
      (c, id) = call ∧ id < g.incoming.size ∨ c ∈ g.callers id := by
  obtain ⟨caller, callee⟩ := call
  simp only [callers, addCall, Array.getElem?_modify, Prod.mk.injEq]
  by_cases hid : callee = id
  · subst hid
    by_cases hlt : callee < g.incoming.size
    · simp [hlt]
    · simp [hlt]
  · simp [hid, Ne.symm hid]

end CallGraph
end KeywordAudit
