import Mathlib.Data.Set.Finite.List
import Mathlib.Logic.Relation
import Mathlib.Order.Preorder.Finite
import KeywordAudit.Proofs.ReportConsistency
import KeywordAudit.Proofs.SyntheticRoots

/-!
# Methods without root callers

A root caller is a method without callers, so a method is left without root callers only if
climbing from it to a caller, and on to a caller of that, never comes to an end.  As it is finitely
called, one of the methods met on the way is met again, and that one lies on a cycle of calls.

In the program of a session the calls are those that count, and what is met is always a method of
the program with a class of its own.  So a hit that no cycle leads to shows up in a root caller
class.
-/

namespace KeywordAudit

/-! ## Climbing to callers -/

/-- The method that is met by climbing a number of times from a method to its first caller.  A
method without callers is not left. -/
def climb (callers : MethodId → List MethodId) (start : MethodId) : Nat → MethodId
  | 0 => start
  | n + 1 => (callers (climb callers start n)).headD (climb callers start n)

section Climb

variable {callers : MethodId → List MethodId} {start : MethodId}

theorem climb_succ_mem {n : Nat} (h : callers (climb callers start n) ≠ []) :
    climb callers start (n + 1) ∈ callers (climb callers start n) := by
  rw [climb]
  cases hcallers : callers (climb callers start n) with
  | nil => exact absurd hcallers h
  | cons c cs => exact List.mem_cons_self

variable (hcalled : ∀ m, CallChain callers start m → callers m ≠ [])

include hcalled

/-- All that is met reaches the start. -/
theorem callChain_climb (n : Nat) : CallChain callers start (climb callers start n) := by
  induction n with
  | zero => exact .here
  | succ n ih => exact .call ih (climb_succ_mem (hcalled _ ih))

/-- What is met later calls what was met before, directly or through others. -/
theorem transGen_climb {i j : Nat} (hlt : i < j) :
    Relation.TransGen (fun x y => x ∈ callers y) (climb callers start j)
      (climb callers start i) := by
  have hstep : ∀ n, climb callers start (n + 1) ∈ callers (climb callers start n) := by
    intro n
    exact climb_succ_mem (hcalled _ (callChain_climb hcalled n))
  induction hlt with
  | refl => exact .single (hstep i)
  | @step j _ ih => exact .head (hstep j) ih

/-- If every method that reaches the start has callers, one of them lies on a cycle: there are
finitely many to be met. -/
theorem exists_cycle (fin : FinitelyCalled callers start) :
    ∃ m, CallChain callers start m ∧ Relation.TransGen (fun x y => x ∈ callers y) m m := by
  obtain ⟨bound, hbound⟩ := fin
  have hmet : ∀ n, climb callers start n ∈ {m | m ∈ bound} := by
    intro n
    exact hbound _ (callChain_climb hcalled n)
  obtain ⟨i, j, hlt, heq⟩ := bound.finite_toSet.exists_lt_map_eq_of_forall_mem hmet
  refine ⟨climb callers start i, callChain_climb hcalled i, ?_⟩
  have hcycle := transGen_climb hcalled hlt
  rw [← heq] at hcycle
  exact hcycle

end Climb

/-- In any view, a method without root callers is reached from a cycle. -/
theorem ProgramView.exists_cycle_of_no_roots {v : ProgramView} {start : MethodId}
    {fin : FinitelyCalled v.callers start} (hnone : v.rootCallers start fin = []) :
    ∃ m, CallChain v.callers start m ∧
      Relation.TransGen (fun x y => x ∈ v.callers y) m m := by
  apply exists_cycle _ fin
  intro m hm hempty
  have hroot : m ∈ v.rootCallers start fin := mem_rootCallers.2 ⟨hempty, hm⟩
  rw [hnone] at hroot
  exact List.not_mem_nil hroot

/-- In a closed program, a root caller of a method with a hit is declared in a root caller
class. -/
theorem Program.Closed.class_of_root {p : Program} (h : p.Closed) {hits : List Hit} {hit : Hit}
    (hhit : hit ∈ hits) {m : Method} (hm : p.view.method hit.method = some m) {root : MethodId}
    (hroot : root ∈ p.view.rootCallers hit.method (p.callersFinite hit.method)) :
    ∃ c, p.view.declaringClass root = some c ∧
      c.name ∈ (Resolution.run p.view p.callersFinite hits).1.classes := by
  obtain ⟨n, hn⟩ := h.method_of_root hm hroot
  obtain ⟨c, hc⟩ := h.declaringClass root n hn
  exact ⟨c, hc, Resolution.mem_classes_run.2 ⟨hit, hhit, root, hroot, c, hc, rfl⟩⟩

namespace Builder

/-- In the program of a session, a method without root callers is reached from a cycle of calls
that count. -/
theorem exists_cycle_session {steps : List Step} {start : MethodId}
    (hnone : (session steps).build.1.view.rootCallers start
      ((session steps).build.1.callersFinite start) = []) :
    ∃ m, Relation.TransGen (Counts steps) m m ∧
      Relation.ReflTransGen (Counts steps) m start := by
  have hcounts : (fun x y => x ∈ (session steps).build.1.view.callers y) = Counts steps := by
    funext x y
    exact propext mem_callers_session
  obtain ⟨m, hchain, hcycle⟩ := ProgramView.exists_cycle_of_no_roots hnone
  rw [hcounts] at hcycle
  exact ⟨m, hcycle, callChain_session.1 hchain⟩

/-- **Root callers are lost to cycles only.**  If a method has no root callers in the program of a
session, some method on a cycle of calls that count, maybe a call to itself, reaches it.  So a
method that no cycle reaches has a root caller, and if it is a method of the program, every
resolution with a hit in it names the class of that root caller. -/
theorem session_roots_unless_cycle (steps : List Step) (start : MethodId) :
    let p := (session steps).build.1
    (p.view.rootCallers start (p.callersFinite start) = [] →
      ∃ m, Relation.TransGen (Counts steps) m m ∧
        Relation.ReflTransGen (Counts steps) m start) ∧
    ((∀ m, Relation.TransGen (Counts steps) m m →
        ¬ Relation.ReflTransGen (Counts steps) m start) →
      ∃ root ∈ p.view.rootCallers start (p.callersFinite start),
        start < p.methodCount → ∀ hits : List Hit, start ∈ hits.map Hit.method →
          ∃ c, p.view.declaringClass root = some c ∧
            c.name ∈ (Resolution.run p.view p.callersFinite hits).1.classes) := by
  intro p
  refine ⟨exists_cycle_session, fun hfree => ?_⟩
  have hsome : p.view.rootCallers start (p.callersFinite start) ≠ [] := by
    intro hnone
    obtain ⟨m, hcycle, hreach⟩ := exists_cycle_session hnone
    exact hfree m hcycle hreach
  obtain ⟨root, hroot⟩ := List.exists_mem_of_ne_nil _ hsome
  refine ⟨root, hroot, fun hlt hits hstart => ?_⟩
  obtain ⟨hit, hhit, rfl⟩ := List.mem_map.1 hstart
  exact (Program.closed_session steps).class_of_root hhit (Array.getElem?_eq_getElem hlt) hroot

/-- Two methods that call each other, one of which calls a third, and apart from them a method that
calls another one. -/
def loopedCalls : List (MethodId × MethodId) := [(0, 1), (1, 0), (1, 2), (3, 4)]

/-- The session that adds these methods and calls. -/
def loopedSession : List Step :=
  [.addMethod "<a.Ring: void ping()>" "a.Ring" [], .addMethod "<a.Ring: void pong()>" "a.Ring" [],
    .addMethod "<b.Net: void send()>" "b.Net" [], .addMethod "<c.Main: void run()>" "c.Main" [],
    .addMethod "<d.Log: void put()>" "d.Log" []] ++
  loopedCalls.map fun call => .addCall call.1 call.2

/-- All five methods are known and no patterns are set, so every call that is made counts. -/
theorem counts_loopedSession {x y : MethodId} :
    Counts loopedSession x y ↔ (x, y) ∈ loopedCalls := by
  have htables : (session loopedSession).methods.size = 5 ∧
      (session loopedSession).calls = loopedCalls.toArray := by
    simp [loopedSession, loopedCalls, session, runSteps, step, addMethod, addCall, classNamed,
      addClass, empty, ClassDecl.ofName]
  obtain ⟨hsize, hcalls⟩ := htables
  have hmade : (x, y) ∈ (session loopedSession).calls ↔ (x, y) ∈ loopedCalls := by
    rw [hcalls, List.mem_toArray]
  refine ⟨fun h => hmade.1 h.mem_calls, fun h => ?_⟩
  have hknown : ∀ call ∈ loopedCalls, call.1 < 5 ∧ call.2 < 5 := by decide
  obtain ⟨hx, hy⟩ := hknown (x, y) h
  rw [← hsize] at hx hy
  obtain ⟨c, hc⟩ := (Program.closed_session loopedSession).declaringClass x _
    (Array.getElem?_eq_getElem hx)
  have hpatterns : patterns loopedSession = [] := rfl
  refine ⟨mem_calls_session.1 (hmade.2 h), hx, hy, c, hc, fun pattern hpattern => ?_⟩
  rw [hpatterns] at hpattern
  exact absurd hpattern List.not_mem_nil

/-- What reaches a method stands in every list that holds the method and, for each call to one of
its members, the caller. -/
theorem mem_of_reaches_loopedSession {members : List MethodId} {m goal : MethodId}
    (hreach : Relation.ReflTransGen (Counts loopedSession) m goal) (hgoal : goal ∈ members)
    (hclosed : ∀ call ∈ loopedCalls, call.2 ∈ members → call.1 ∈ members) : m ∈ members := by
  induction hreach using Relation.ReflTransGen.head_induction_on with
  | refl => exact hgoal
  | head hcall _ ih => exact hclosed _ (counts_loopedSession.1 hcall) ih

/-- The third method has no root callers and is reached from a cycle; the other pair is free of
cycles, and a hit in the called method leads to a class. -/
theorem session_roots_looped :
    let p := (session loopedSession).build.1
    p.view.rootCallers 2 (p.callersFinite 2) = [] ∧
    (∃ m, Relation.TransGen (Counts loopedSession) m m ∧
      Relation.ReflTransGen (Counts loopedSession) m 2) ∧
    (∀ m, Relation.TransGen (Counts loopedSession) m m →
      ¬ Relation.ReflTransGen (Counts loopedSession) m 4) ∧
    4 < p.methodCount ∧
    ∃ root ∈ p.view.rootCallers 4 (p.callersFinite 4),
      ∃ c, p.view.declaringClass root = some c ∧ c.name ∈ (Resolution.run p.view p.callersFinite
        [⟨4, 0, "the key", "key", .anyStatement⟩]).1.classes := by
  intro p
  have hnone : p.view.rootCallers 2 (p.callersFinite 2) = [] := by
    refine List.eq_nil_iff_forall_not_mem.2 fun r hr => ?_
    obtain ⟨hempty, hchain⟩ := ProgramView.mem_rootCallers.1 hr
    have hinside : r ∈ [0, 1, 2] :=
      mem_of_reaches_loopedSession (callChain_session.1 hchain) (by decide) (by decide)
    have hcalled : ∀ m ∈ [0, 1, 2], ∃ x ∈ [0, 1], (x, m) ∈ loopedCalls := by decide
    obtain ⟨x, -, hcall⟩ := hcalled r hinside
    have hmem : x ∈ p.view.callers r := mem_callers_session.2 (counts_loopedSession.2 hcall)
    rw [hempty] at hmem
    exact List.not_mem_nil hmem
  have hfree : ∀ m, Relation.TransGen (Counts loopedSession) m m →
      ¬ Relation.ReflTransGen (Counts loopedSession) m 4 := by
    intro m hcycle hreach
    -- a method on a cycle makes a call and is called, and neither of the pair does both
    obtain ⟨next, hcall, -⟩ := Relation.TransGen.head'_iff.1 hcycle
    obtain ⟨last, -, hback⟩ := Relation.TransGen.tail'_iff.1 hcycle
    have hinside : m ∈ [3, 4] := mem_of_reaches_loopedSession hreach (by decide) (by decide)
    have hends : ∀ m ∈ [3, 4], (∀ call ∈ loopedCalls, call.1 ≠ m) ∨
        ∀ call ∈ loopedCalls, call.2 ≠ m := by decide
    rcases hends m hinside with hcalls | hcalled
    · exact hcalls _ (counts_loopedSession.1 hcall) rfl
    · exact hcalled _ (counts_loopedSession.1 hback) rfl
  have hcounts : Counts loopedSession 3 4 := counts_loopedSession.2 (by decide)
  obtain ⟨hcycle, -⟩ := session_roots_unless_cycle loopedSession 2
  obtain ⟨-, hroots⟩ := session_roots_unless_cycle loopedSession 4
  obtain ⟨root, hroot, hclass⟩ := hroots hfree
  exact ⟨hnone, hcycle hnone, hfree, hcounts.callee_lt, root, hroot,
    hclass hcounts.callee_lt _ List.mem_cons_self⟩

end Builder
end KeywordAudit
