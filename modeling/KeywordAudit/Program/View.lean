import KeywordAudit.Program.Builder

/-!
# Views of a program

The analysis reads a program through a view: which methods there are, what they contain, and who
calls whom.  A finished program has a view; so has any set of tables, in which numbers may be
unknown, callers repeated and lists in any order.

The analysis follows callers of callers, so it asks that each method has finitely many direct and
indirect callers.
-/

namespace KeywordAudit

/-- What an analysis can ask of a program. -/
structure ProgramView where
  /-- The methods in scope, in a fixed order. -/
  methods : List MethodId
  /-- The method of a number. -/
  method : MethodId → Option Method
  /-- The class of a number. -/
  classDecl : ClassId → Option ClassDecl
  /-- The direct callers of a method. -/
  callers : MethodId → List MethodId
  /-- How many methods to expect. -/
  methodCount : Nat
  /-- The statements of a method.  A view may give others than those of the body. -/
  statements : MethodId → List Statement := fun id => ((method id).map Method.body).getD []
  /-- The class that declares a method.  A view may give another one than the method's owner. -/
  declaringClass : MethodId → Option ClassDecl := fun id =>
    (method id).bind fun m => classDecl m.owner

/-- A view is standard when it reads statements and declaring classes off the methods. -/
structure ProgramView.Standard (v : ProgramView) : Prop where
  statements : ∀ id, v.statements id = ((v.method id).map Method.body).getD []
  declaringClass : ∀ id, v.declaringClass id = (v.method id).bind fun m => v.classDecl m.owner

/-- In a standard view the statements of a known method are those of its body. -/
theorem ProgramView.Standard.statements_of_method {v : ProgramView} (h : v.Standard) {id : MethodId}
    {m : Method} (hm : v.method id = some m) : v.statements id = m.body := by
  rw [h.statements, hm]
  rfl

/-! ## Chains of calls -/

/-- `CallChain callers goal m` says that `m` is `goal` or calls it, directly or through others. -/
inductive CallChain (callers : MethodId → List MethodId) (goal : MethodId) : MethodId → Prop where
  | here : CallChain callers goal goal
  | call {m c : MethodId} : CallChain callers goal m → c ∈ callers m → CallChain callers goal c

/-- A method is finitely called when some list holds all its direct and indirect callers. -/
def FinitelyCalled (callers : MethodId → List MethodId) (goal : MethodId) : Prop :=
  ∃ bound : List MethodId, ∀ m, CallChain callers goal m → m ∈ bound

/-- All methods are finitely called. -/
def ProgramView.CallersFinite (v : ProgramView) : Prop :=
  ∀ goal, FinitelyCalled v.callers goal

/-- If one list holds all the direct callers that there are, every method is finitely called. -/
theorem FinitelyCalled.of_bound {callers : MethodId → List MethodId} (bound : List MethodId)
    (h : ∀ m, ∀ c ∈ callers m, c ∈ bound) (goal : MethodId) : FinitelyCalled callers goal := by
  refine ⟨goal :: bound, fun m hm => ?_⟩
  cases hm with
  | here => simp
  | call _ hc => exact List.mem_cons_of_mem _ (h _ _ hc)

/-! ## The view of a finished program -/

/-- The view of a finished program. -/
def Program.view (p : Program) : ProgramView where
  methods := List.range p.methods.size
  method := fun id => p.methods[id]?
  classDecl := fun id => p.classes[id]?
  callers := p.calls.callers
  methodCount := p.methods.size

theorem Program.standard_view (p : Program) : p.view.Standard := ⟨fun _ => rfl, fun _ => rfl⟩

/-- In a finished program every method is finitely called. -/
theorem Program.callersFinite (p : Program) : p.view.CallersFinite := by
  refine FinitelyCalled.of_bound p.calls.incoming.toList.flatten ?_
  intro m c hc
  simp only [Program.view, CallGraph.callers] at hc
  cases hm : p.calls.incoming[m]? with
  | none => simp [hm] at hc
  | some cs =>
    rw [hm] at hc
    refine List.mem_flatten.2 ⟨cs, ?_, hc⟩
    obtain ⟨hlt, rfl⟩ := Array.getElem?_eq_some_iff.1 hm
    simp

/-! ## Views of tables -/

/-- A program given by tables. -/
structure Tables where
  enumeration : List MethodId
  methods : List Method
  classes : List ClassDecl
  callers : List (MethodId × List MethodId)
  methodCount : Nat

namespace Tables

/-- The callers listed for a method; the first entry counts. -/
def callersOf (t : Tables) (id : MethodId) : List MethodId :=
  (t.callers.lookup id).getD []

/-- The view of tables: numbers outside of them are unknown. -/
def view (t : Tables) : ProgramView where
  methods := t.enumeration
  method := fun id => t.methods[id]?
  classDecl := fun id => t.classes[id]?
  callers := t.callersOf
  methodCount := t.methodCount

theorem standard_view (t : Tables) : t.view.Standard := ⟨fun _ => rfl, fun _ => rfl⟩

/-- In tables every method is finitely called. -/
theorem callersFinite (t : Tables) : t.view.CallersFinite := by
  refine FinitelyCalled.of_bound (t.callers.map Prod.snd).flatten ?_
  intro m c hc
  simp only [view, callersOf] at hc
  cases hm : t.callers.lookup m with
  | none => simp [hm] at hc
  | some cs =>
    rw [hm] at hc
    obtain ⟨before, after, htable, -⟩ := List.lookup_eq_some_iff.1 hm
    have hentry : (m, cs) ∈ t.callers := by
      rw [htable]
      exact List.mem_append_right _ List.mem_cons_self
    exact List.mem_flatten.2 ⟨cs, List.mem_map.2 ⟨_, hentry, rfl⟩, hc⟩

end Tables
end KeywordAudit
