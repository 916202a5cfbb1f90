import Mathlib.Logic.Relation
import KeywordAudit.Proofs.Resolution
import KeywordAudit.Proofs.RootSearch
import KeywordAudit.Proofs.SessionCalls

/-!
# Synthetic entry classes and roots

A synthetic entry class stands for the platform, and calls from it do not count.  Its methods keep
their callers but reach nothing besides themselves, so such a method is a root caller of itself at
most, also where calls lead in a circle through it.  What only the platform calls is left without
callers: it is a root caller of everything that it reaches.
-/

namespace KeywordAudit.Builder

variable {steps : List Step}

/-! ## Methods of synthetic entry classes -/

/-- The name of a class fits one of the patterns that a session has set last. -/
def FitsPatterns (steps : List Step) (name : String) : Prop :=
  ∃ pattern ∈ patterns steps, Glob.fits pattern name = true

/-- A method of the finished program is declared in a synthetic entry class. -/
def IsSynthetic (steps : List Step) (id : MethodId) : Prop :=
  ∃ c, (session steps).build.1.view.declaringClass id = some c ∧ FitsPatterns steps c.name

/-- No method of a synthetic entry class makes a call that counts. -/
theorem Counts.not_isSynthetic {caller callee : MethodId} (h : Counts steps caller callee) :
    ¬ IsSynthetic steps caller := by
  rintro ⟨c, hc, pattern, hpattern, hfits⟩
  obtain ⟨c', hc', hunfit⟩ := h.unfit
  rw [hc, Option.some.injEq] at hc'
  rw [← hc'] at hunfit
  rw [hunfit pattern hpattern] at hfits
  exact absurd hfits (by decide)

/-- A call that counts is one of the recorded calls. -/
theorem Counts.mem_calls {caller callee : MethodId} (h : Counts steps caller callee) :
    (caller, callee) ∈ (session steps).calls :=
  mem_calls_session.2 h.made

/-! ## Chains of calls that count -/

/-- A chain of calls in the finished program is a chain of calls that count. -/
theorem callChain_session {goal m : MethodId} :
    CallChain (session steps).build.1.view.callers goal m ↔
      Relation.ReflTransGen (Counts steps) m goal := by
  constructor
  · intro hchain
    induction hchain with
    | here => exact .refl
    | call _ hc ih => exact .head (mem_callers_session.1 hc) ih
  · intro hreach
    induction hreach using Relation.ReflTransGen.head_induction_on with
    | refl => exact .here
    | head hcall _ ih => exact .call ih (mem_callers_session.2 hcall)

/-- A method of a synthetic entry class reaches itself only. -/
theorem IsSynthetic.eq_of_reaches {m goal : MethodId} (h : IsSynthetic steps m)
    (hreach : Relation.ReflTransGen (Counts steps) m goal) : m = goal := by
  rcases hreach.cases_head with heq | ⟨next, hcall, -⟩
  · exact heq
  · exact absurd h hcall.not_isSynthetic

/-- A method that only synthetic entry classes call has no callers in the finished program. -/
theorem callers_eq_nil_of_synthetic {m : MethodId}
    (h : ∀ x, (x, m) ∈ (session steps).calls → x < (session steps).methods.size →
      IsSynthetic steps x) : (session steps).build.1.view.callers m = [] := by
  refine List.eq_nil_iff_forall_not_mem.2 fun x hx => ?_
  have hcounts : Counts steps x m := mem_callers_session.1 hx
  exact hcounts.not_isSynthetic (h x hcounts.mem_calls hcounts.caller_lt)

/-- A root caller is declared in a synthetic entry class only if it is the start. -/
theorem eq_start_of_synthetic {start r : MethodId}
    (hr : r ∈ (session steps).build.1.view.rootCallers start
      ((session steps).build.1.callersFinite start))
    (h : IsSynthetic steps r) : r = start := by
  obtain ⟨-, hchain⟩ := ProgramView.mem_rootCallers.1 hr
  exact h.eq_of_reaches (callChain_session.1 hchain)

/-- **Synthetic entry classes are nobody else's roots.**  A root caller that is declared in a
synthetic entry class is the start of the search itself.  A method all of whose recorded callers,
as far as they are known, are declared in such classes is a root caller of itself and of every
method that it reaches through calls that count.  So the name of a synthetic entry class is among
the root caller classes only if a hit lies in a method of that class. -/
theorem synthetic_roots (steps : List Step) :
    let p := (session steps).build.1
    (∀ start, ∀ r ∈ p.view.rootCallers start (p.callersFinite start),
      IsSynthetic steps r → r = start) ∧
    (∀ m, (∀ x, (x, m) ∈ (session steps).calls → x < p.methodCount → IsSynthetic steps x) →
      m ∈ p.view.rootCallers m (p.callersFinite m) ∧
      ∀ goal, Relation.ReflTransGen (Counts steps) m goal →
        m ∈ p.view.rootCallers goal (p.callersFinite goal)) ∧
    ∀ (hits : List Hit) (name : String), FitsPatterns steps name →
      name ∈ (Resolution.run p.view p.callersFinite hits).1.classes →
      ∃ hit ∈ hits, ∃ c, p.view.declaringClass hit.method = some c ∧ c.name = name := by
  refine ⟨fun start r hr => eq_start_of_synthetic hr, fun m h => ?_,
    fun hits name hfits hname => ?_⟩
  · have hnone := callers_eq_nil_of_synthetic h
    refine ⟨ProgramView.mem_rootCallers.2 ⟨hnone, .here⟩, fun goal hreach => ?_⟩
    exact ProgramView.mem_rootCallers.2 ⟨hnone, callChain_session.2 hreach⟩
  · obtain ⟨hit, hhit, root, hroot, c, hc, rfl⟩ := Resolution.mem_classes_run.1 hname
    have heq : root = hit.method := eq_start_of_synthetic hroot ⟨c, hc, hfits⟩
    rw [heq] at hc
    exact ⟨hit, hhit, c, hc, rfl⟩

/-- An application method and a platform method that call each other, and a call from a number that
is never known. -/
def circleSession : List Step :=
  [.setSynthetic ["dummy*"], .addMethod "<a.Main: void run()>" "a.Main" [],
    .addMethod "<dummyMainClass: void main()>" "dummyMainClass" [], .addCall 1 0, .addCall 0 1,
    .addCall 7 0]

/-- The application method is the root caller of both, and a hit in it leads to no platform
class. -/
theorem synthetic_roots_circle :
    let p := (session circleSession).build.1
    IsSynthetic circleSession 1 ∧
    1 ∉ p.view.rootCallers 0 (p.callersFinite 0) ∧
    0 ∈ p.view.rootCallers 1 (p.callersFinite 1) ∧
    "dummyMainClass" ∉ (Resolution.run p.view p.callersFinite
      [⟨0, 0, "the key", "key", .anyStatement⟩]).1.classes := by
  obtain ⟨hself, hroot, hclasses⟩ := synthetic_roots circleSession
  have htables : (session circleSession).methods =
        #[⟨"<a.Main: void run()>", 0, []⟩, ⟨"<dummyMainClass: void main()>", 1, []⟩] ∧
      (session circleSession).classes = #[.ofName "a.Main", .ofName "dummyMainClass"] ∧
      (session circleSession).calls = #[(1, 0), (0, 1), (7, 0)] := by
    simp [circleSession, session, runSteps, step, addMethod, addCall, setSynthetic, classNamed,
      addClass, empty, ClassDecl.ofName]
  obtain ⟨hmethods, hclassTable, hcalls⟩ := htables
  have hclass : ∀ id, (session circleSession).build.1.view.declaringClass id =
      (#[⟨"<a.Main: void run()>", 0, []⟩, ⟨"<dummyMainClass: void main()>", 1, []⟩] :
        Array Method)[id]?.bind
        fun m => (#[.ofName "a.Main", .ofName "dummyMainClass"] : Array ClassDecl)[m.owner]? := by
    intro id
    rw [← hmethods, ← hclassTable]
    rfl
  have hplatform : IsSynthetic circleSession 1 :=
    ⟨.ofName "dummyMainClass", hclass 1, "dummy*", by decide, by decide⟩
  have hcount : (session circleSession).methods.size = 2 := congrArg Array.size hmethods
  have hcounts : Counts circleSession 0 1 := by
    refine ⟨⟨circleSession.take 4, .addCall 0 1, ⟨_, rfl⟩, .direct 0 1⟩, ?_, ?_, .ofName "a.Main",
      hclass 0, by decide⟩
    · rw [hcount]
      decide
    · rw [hcount]
      decide
  have honly : ∀ x, (x, 0) ∈ (session circleSession).calls →
      x < (session circleSession).methods.size → IsSynthetic circleSession x := by
    intro x hx hlt
    rw [hcalls] at hx
    rw [hcount] at hlt
    have hcaller : x = 1 ∨ x = 7 := by simpa using hx
    rcases hcaller with rfl | rfl
    · exact hplatform
    · exact absurd hlt (by decide)
  refine ⟨hplatform, fun h => ?_, (hroot 0 honly).2 1 (.single hcounts), fun h => ?_⟩
  · exact absurd (hself 0 1 h hplatform) (by decide)
  · obtain ⟨hit, hhit, c, hc, hname⟩ := hclasses _ _ ⟨"dummy*", by decide, by decide⟩ h
    rw [List.mem_singleton.1 hhit, hclass] at hc
    rw [← Option.some.inj hc] at hname
    exact absurd hname (by decide)

end KeywordAudit.Builder
