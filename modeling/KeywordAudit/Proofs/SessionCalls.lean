import Mathlib.Data.Finset.Card
import Mathlib.Data.List.Infix
import Mathlib.Data.List.Nodup
import KeywordAudit.Proofs.Session

/-!
# The calls of a session

A session records calls as they come, between numbers that may not be known yet or never will be.
Which of them count is decided when the program is finished, by the methods, classes and patterns
of that moment.  The call graph of the finished program holds these calls and no others: callers
are listed in increasing order, and each call counts once, however often it was made.
-/

namespace KeywordAudit

/-! ## Call graphs -/

namespace CallGraph

/-- Recording a call keeps the callers of a method in increasing order. -/
theorem increasing_addCall {g : CallGraph} (h : ∀ id, (g.callers id).Pairwise (· < ·))
    (call : MethodId × MethodId) (id : MethodId) :
    ((g.addCall call).callers id).Pairwise (· < ·) := by
  have hid := h id
  unfold callers at hid ⊢
  simp only [addCall, Array.getElem?_modify]
  by_cases hcall : call.2 = id
  · rw [if_pos hcall]
    cases hrow : g.incoming[id]? with
    | none => exact List.Pairwise.nil
    | some row =>
      rw [hrow, Option.getD_some] at hid
      exact pairwise_insertIncreasing call.1 hid
  · rw [if_neg hcall]
    exact hid

/-- The callers of a method stand in increasing order. -/
theorem increasing_callers (size : Nat) (calls : List (MethodId × MethodId)) (id : MethodId) :
    ((ofCalls size calls).callers id).Pairwise (· < ·) := by
  have hfold : ∀ g : CallGraph, (∀ id, (g.callers id).Pairwise (· < ·)) →
      ∀ id, ((calls.foldl addCall g).callers id).Pairwise (· < ·) := by
    induction calls with
    | nil =>
      intro g hg
      exact hg
    | cons call calls ih =>
      intro g hg
      exact ih (g.addCall call) (increasing_addCall hg call)
  refine hfold (empty size) (fun id => ?_) id
  rw [callers_empty]
  exact List.Pairwise.nil

/-- A number without a method has no callers. -/
theorem callers_of_size_le (g : CallGraph) {id : MethodId} (h : g.incoming.size ≤ id) :
    g.callers id = [] := by
  rw [callers, Array.getElem?_eq_none h, Option.getD_none]

/-- The calls of a graph, callee by callee. -/
def pairs (g : CallGraph) : List (MethodId × MethodId) :=
  (List.range g.incoming.size).flatMap fun callee =>
    (g.callers callee).map fun caller => (caller, callee)

theorem mem_pairs {g : CallGraph} {x y : MethodId} : (x, y) ∈ g.pairs ↔ x ∈ g.callers y := by
  rw [pairs, List.mem_flatMap]
  constructor
  · rintro ⟨callee, -, hmem⟩
    obtain ⟨caller, hcaller, heq⟩ := List.mem_map.1 hmem
    obtain ⟨rfl, rfl⟩ := Prod.mk.inj heq
    exact hcaller
  · intro hx
    have hy : y < g.incoming.size := by
      by_contra hge
      rw [g.callers_of_size_le (Nat.le_of_not_lt hge)] at hx
      exact List.not_mem_nil hx
    exact ⟨y, List.mem_range.2 hy, List.mem_map.2 ⟨x, hx, rfl⟩⟩

theorem nodup_pairs {g : CallGraph} (h : ∀ id, (g.callers id).Nodup) : g.pairs.Nodup := by
  rw [pairs, List.nodup_flatMap]
  constructor
  · intro callee _
    refine (h callee).map ?_
    intro x x' hxx'
    exact (Prod.mk.inj hxx').1
  · refine List.nodup_range.imp ?_
    -- calls to different methods are different calls
    intro callee callee' hne call hcall hcall'
    obtain ⟨x, -, rfl⟩ := List.mem_map.1 hcall
    obtain ⟨x', -, heq⟩ := List.mem_map.1 hcall'
    exact hne (Prod.mk.inj heq).2.symm

/-- The number of calls is the number of the pairs that are listed. -/
theorem callCount_eq (g : CallGraph) : g.callCount = g.pairs.length := by
  have hrows : g.incoming.toList = (List.range g.incoming.size).map g.callers := by
    refine List.ext_getElem? fun i => ?_
    rw [Array.getElem?_toList, List.getElem?_map]
    by_cases hi : i < g.incoming.size
    · rw [List.getElem?_range hi, Option.map_some, callers, Array.getElem?_eq_getElem hi,
        Option.getD_some]
    · have hle : g.incoming.size ≤ i := Nat.le_of_not_lt hi
      rw [Array.getElem?_eq_none hle, List.getElem?_eq_none, Option.map_none]
      rw [List.length_range]
      exact hle
  calc g.callCount
      = (g.incoming.toList.map List.length).sum := by
        rw [callCount, List.sum_eq_foldr, List.foldr_map]
    _ = ((List.range g.incoming.size).map fun callee => (g.callers callee).length).sum := by
        rw [hrows, List.map_map]
        rfl
    _ = g.pairs.length := by
        rw [pairs, List.length_flatMap]
        simp only [List.length_map]

end CallGraph

namespace Builder

/-! ## Patterns -/

/-- The patterns that a step sets. -/
def Step.patterns? : Step → Option (List String)
  | .setSynthetic patterns => some patterns
  | _ => none

/-- The patterns that a session has set last. -/
def patterns (steps : List Step) : List String :=
  (steps.filterMap Step.patterns?).getLast?.getD []

theorem synthetic_step (b : Builder) (s : Step) :
    (b.step s).1.synthetic = s.patterns?.getD b.synthetic := by
  cases s with
  | setSynthetic patterns => rfl
  | addClass c => exact (addClass_frame c).2.2.2
  | addMethod signature className body =>
    cases hid : b.methodIndex[signature]? with
    | some id =>
      rw [step_addMethod_of_known hid]
      rfl
    | none =>
      rw [step_addMethod_of_new hid]
      exact (withMethodIn_frame signature className body).2.2
  | addCall caller callee => rfl
  | addCallBetween caller callee =>
    rw [step_addCallBetween]
    rfl

/-- The patterns of a builder are those set last. -/
theorem synthetic_session (steps : List Step) : (session steps).synthetic = patterns steps := by
  induction steps using List.reverseRecOn with
  | nil => rfl
  | append_singleton steps s ih =>
    rw [session_concat, synthetic_step, ih, patterns, patterns, List.filterMap_append,
      List.getLast?_append]
    cases hs : s.patterns? with
    | none =>
      rw [List.filterMap_cons_none hs, List.filterMap_nil, List.getLast?_nil, Option.none_or]
      rfl
    | some ps =>
      rw [List.filterMap_cons_some hs, List.filterMap_nil, List.getLast?_singleton,
        Option.some_or]
      rfl

/-! ## Calls that were made -/

/-- A step makes a call: between two numbers, whatever they are, or between the numbers of two
signatures that are known to the builder. -/
inductive Step.Makes (b : Builder) : Step → MethodId → MethodId → Prop where
  | direct (x y : MethodId) : Makes b (.addCall x y) x y
  | bySignature {caller callee : String} {x y : MethodId} : b.methodId caller = some x →
      b.methodId callee = some y → Makes b (.addCallBetween caller callee) x y

/-- A step adds the call that it makes to the recorded ones. -/
theorem mem_calls_step {b : Builder} {s : Step} {x y : MethodId} :
    (x, y) ∈ (b.step s).1.calls ↔ (x, y) ∈ b.calls ∨ s.Makes b x y := by
  have hframe : ∀ calls : Array (MethodId × MethodId), calls = b.calls → (¬ s.Makes b x y) →
      ((x, y) ∈ calls ↔ (x, y) ∈ b.calls ∨ s.Makes b x y) := by
    intro calls hcalls hnot
    rw [hcalls]
    exact (or_iff_left hnot).symm
  cases s with
  | setSynthetic patterns => exact hframe _ rfl (by rintro ⟨⟩)
  | addClass c => exact hframe _ (addClass_frame c).2.2.1 (by rintro ⟨⟩)
  | addMethod signature className body =>
    cases hid : b.methodIndex[signature]? with
    | some id =>
      rw [step_addMethod_of_known hid]
      exact hframe _ rfl (by rintro ⟨⟩)
    | none =>
      rw [step_addMethod_of_new hid]
      exact hframe _ (withMethodIn_frame signature className body).2.1 (by rintro ⟨⟩)
  | addCall caller callee =>
    show (x, y) ∈ b.calls.push (caller, callee) ↔ _
    rw [Array.mem_push]
    refine or_congr_right ⟨?_, ?_⟩
    · intro heq
      obtain ⟨rfl, rfl⟩ := Prod.mk.inj heq
      exact .direct x y
    · rintro ⟨⟩
      rfl
  | addCallBetween caller callee =>
    rw [step_addCallBetween]
    show (x, y) ∈ b.calls ++ (b.callBetween? caller callee).toList ↔ _
    rw [← Array.mem_toList_iff, Array.toList_appendList, List.mem_append, Array.mem_toList_iff,
      Option.mem_toList, callBetween?_eq_some]
    refine or_congr_right ⟨?_, ?_⟩
    · rintro ⟨hx, hy⟩
      exact .bySignature hx hy
    · rintro (- | ⟨hx, hy⟩)
      exact ⟨hx, hy⟩

/-- The calls that a builder has recorded are those that were made in the session. -/
theorem mem_calls_session {steps : List Step} {x y : MethodId} :
    (x, y) ∈ (session steps).calls ↔
      ∃ before s, before ++ [s] <+: steps ∧ s.Makes (session before) x y := by
  have hempty : (x, y) ∉ empty.calls := by simp [empty]
  exact session_iff_exists_step (P := fun b => (x, y) ∈ b.calls) (Q := fun b s => s.Makes b x y)
    hempty fun _ _ => mem_calls_step

/-! ## Calls that count -/

/-- A call counts at the end of a session: it was made, both numbers are known by now, and the
class of the caller fits none of the patterns that were set last. -/
structure Counts (steps : List Step) (caller callee : MethodId) : Prop where
  made : ∃ before s, before ++ [s] <+: steps ∧ s.Makes (session before) caller callee
  caller_lt : caller < (session steps).methods.size
  callee_lt : callee < (session steps).methods.size
  unfit : ∃ c, (session steps).build.1.view.declaringClass caller = some c ∧
    ∀ pattern ∈ patterns steps, Glob.fits pattern c.name = false

/-- The callers in the finished program are those of the calls that count. -/
theorem mem_callers_session {steps : List Step} {x y : MethodId} :
    x ∈ (session steps).build.1.view.callers y ↔ Counts steps x y := by
  have hb := consistent_session steps
  show x ∈ (session steps).build.1.calls.callers y ↔ _
  rw [hb.mem_callers_build, mem_calls_session, synthetic_session]
  constructor
  · rintro ⟨hmade, hy, m, c, hm, hc, hfits⟩
    refine ⟨hmade, (Array.getElem?_eq_some_iff.1 hm).1, hy, c, ?_, Glob.fitsAny_eq_false.1 hfits⟩
    show ((session steps).methods[x]?).bind (fun m => (session steps).classes[m.owner]?) = some c
    rw [hm, Option.bind_some, hc]
  · rintro ⟨hmade, -, hy, c, hclass, hfits⟩
    obtain ⟨m, hm, hc⟩ := Option.bind_eq_some_iff.1 hclass
    exact ⟨hmade, hy, m, c, hm, hc, Glob.fitsAny_eq_false.2 hfits⟩

/-- **The call graph of a session.**  The callers of a method are listed in increasing order, and
they are exactly the callers of the calls that count: calls that were made at any time, directly or
by signature, between numbers that are known in the end, from a class that fits none of the
patterns set last.  Numbers without a method have no callers, and each call counts once. -/
theorem session_callers_exact (steps : List Step) :
    let p := (session steps).build.1
    (∀ callee, (p.view.callers callee).Pairwise (· < ·)) ∧
    (∀ caller callee, caller ∈ p.view.callers callee ↔ Counts steps caller callee) ∧
    (∀ callee, p.methodCount ≤ callee → p.view.callers callee = []) ∧
    ∃ calls : Finset (MethodId × MethodId),
      (∀ caller callee, (caller, callee) ∈ calls ↔ Counts steps caller callee) ∧
      p.callCount = calls.card := by
  intro p
  have hincreasing : ∀ callee, (p.view.callers callee).Pairwise (· < ·) := fun callee =>
    CallGraph.increasing_callers _ (session steps).keptCalls callee
  have hnodup : p.calls.pairs.Nodup :=
    CallGraph.nodup_pairs fun callee => (hincreasing callee).imp Nat.ne_of_lt
  refine ⟨hincreasing, fun caller callee => mem_callers_session, ?_, p.calls.pairs.toFinset, ?_, ?_⟩
  · intro callee hle
    refine List.eq_nil_iff_forall_not_mem.2 fun caller hcaller => ?_
    have hlt : callee < p.methodCount := (mem_callers_session.1 hcaller).callee_lt
    omega
  · intro caller callee
    rw [List.mem_toFinset, CallGraph.mem_pairs]
    exact mem_callers_session
  · rw [List.toFinset_card_of_nodup hnodup]
    exact p.calls.callCount_eq

/-- Two methods, a call that is made before they are known and again by signature, a call to a
number that is never known, and patterns that are replaced after all calls were made. -/
def lateSession : List Step :=
  [.setSynthetic ["b.*"], .addCall 1 0, .addMethod "<a.A: void a()>" "a.A" [],
    .addMethod "<b.B: void b()>" "b.B" [],
    .addCallBetween "<b.B: void b()>" "<a.A: void a()>", .addCall 1 9, .addCall 0 1,
    .setSynthetic ["a.*"]]

/-- The early call counts, the call from the class that the last patterns name does not, and the
number that is never known has no callers. -/
theorem session_callers_late :
    let p := (session lateSession).build.1
    1 ∈ p.view.callers 0 ∧ 0 ∉ p.view.callers 1 ∧ p.methodCount ≤ 9 ∧ p.view.callers 9 = [] := by
  obtain ⟨-, hmem, houtside, -⟩ := session_callers_exact lateSession
  have htables : (session lateSession).methods =
        #[⟨"<a.A: void a()>", 0, []⟩, ⟨"<b.B: void b()>", 1, []⟩] ∧
      (session lateSession).classes = #[.ofName "a.A", .ofName "b.B"] := by
    simp [lateSession, session, runSteps, step, addMethod, addCall, setSynthetic, addCallBetween,
      classNamed, addClass, empty, methodId, ClassDecl.ofName]
  obtain ⟨hmethods, hclasses⟩ := htables
  have hclass : ∀ id, (session lateSession).build.1.view.declaringClass id =
      (#[⟨"<a.A: void a()>", 0, []⟩, ⟨"<b.B: void b()>", 1, []⟩] : Array Method)[id]?.bind
        fun m => (#[.ofName "a.A", .ofName "b.B"] : Array ClassDecl)[m.owner]? := by
    intro id
    rw [← hmethods, ← hclasses]
    rfl
  have hcount : (session lateSession).build.1.methodCount = 2 := congrArg Array.size hmethods
  have hlate : (session lateSession).build.1.methodCount ≤ 9 := by omega
  refine ⟨(hmem 1 0).2 ⟨⟨[.setSynthetic ["b.*"]], .addCall 1 0, ⟨_, rfl⟩, .direct 1 0⟩, ?_, ?_,
    .ofName "b.B", hclass 1, by decide⟩, ?_, hlate, houtside 9 hlate⟩
  · rw [hmethods]
    decide
  · rw [hmethods]
    decide
  · intro hcaller
    obtain ⟨c, hc, hunfit⟩ := ((hmem 0 1).1 hcaller).unfit
    rw [hclass 0] at hc
    have hfits := hunfit "a.*" (by decide)
    rw [← Option.some.inj hc] at hfits
    exact absurd hfits (by decide)

end Builder
end KeywordAudit
