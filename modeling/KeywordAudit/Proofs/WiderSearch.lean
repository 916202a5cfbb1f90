import Mathlib.Data.List.Flatten
import Mathlib.Data.List.Forall2
import KeywordAudit.Proofs.PackageKeywords
import KeywordAudit.Proofs.Resolution

/-!
# Searching more statements

A policy searches all its statements under one scope, so what it decides about a hit is only
whether the statement is searched at all.  If everything that one inspection searches is searched
by another one too, the hits of the first are found again by the second, in the same order, and
the keywords and the root caller classes that follow from them can only become more.  Package
keywords and container statements do not depend on what is searched.

Two inspections may differ in the policy, as here, or in the flags of the calls that the views
show; `Wider` covers both.
-/

namespace KeywordAudit

/-! ## What a policy decides -/

namespace Policy

/-- The scope under which a policy searches whatever it searches. -/
def scope (p : Policy) : Scope :=
  if p.interestedApiOnly then
    if p.apiInLibrariesOnly then .libraryApi else .interestingApi
  else .anyStatement

/-- A statement is searched under the scope of the policy or not at all; it is searched if the
policy asks for no call, or if it makes a call as the policy asks for. -/
theorem scopeOf_eq_some_iff {p : Policy} {s : Statement} {scope : Scope} :
    p.scopeOf s = some scope ↔ p.scope = scope ∧
      (p.interestedApiOnly = true → ∃ call, s.invocation = some call ∧ call.interesting = true ∧
        (p.apiInLibrariesOnly = true → call.library = true)) := by
  unfold scopeOf Policy.scope
  cases p.interestedApiOnly with
  | false => simp
  | true =>
    cases s.invocation with
    | none => simp
    | some call =>
      cases hinteresting : call.interesting with
      | false => simp [hinteresting]
      | true =>
        cases p.apiInLibrariesOnly with
        | false => simp [hinteresting]
        | true => cases hlibrary : call.library <;> simp [hinteresting, hlibrary]

theorem isEligible_iff {p : Policy} {s : Statement} :
    p.isEligible s = true ↔ p.scopeOf s = some p.scope := by
  unfold isEligible
  rw [Option.isSome_iff_exists]
  constructor
  · rintro ⟨scope, hscope⟩
    rw [(scopeOf_eq_some_iff.1 hscope).1, hscope]
  · intro hscope
    exact ⟨_, hscope⟩

/-- A policy that asks for less searches more. -/
theorem isEligible_of_asks_less {p p' : Policy}
    (hinterested : p'.interestedApiOnly = true → p.interestedApiOnly = true)
    (hlibraries : p'.apiInLibrariesOnly = true → p.apiInLibrariesOnly = true ∨
      p'.interestedApiOnly = false)
    {s : Statement} (h : p.isEligible s = true) : p'.isEligible s = true := by
  obtain ⟨-, hcall⟩ := scopeOf_eq_some_iff.1 (isEligible_iff.1 h)
  refine isEligible_iff.2 (scopeOf_eq_some_iff.2 ⟨rfl, fun hasks => ?_⟩)
  obtain ⟨call, hmakes, hinteresting, hlibrary⟩ := hcall (hinterested hasks)
  refine ⟨call, hmakes, hinteresting, fun hasksLibrary => ?_⟩
  rcases hlibraries hasksLibrary with hlib | hnot
  · exact hlibrary hlib
  · rw [hasks] at hnot
    exact absurd hnot (by decide)

end Policy

/-! ## Hits without their scope -/

/-- A hit without its scope: the place of the statement, its text and the keyword. -/
def Hit.finding (h : Hit) : (MethodId × Nat) × String × String :=
  ((h.method, h.index), h.text, h.keyword)

/-- A finding as a hit of the given scope. -/
def Hit.ofFinding (scope : Scope) (f : (MethodId × Nat) × String × String) : Hit :=
  ⟨f.1.1, f.1.2, f.2.1, f.2.2, scope⟩

theorem Hit.ofFinding_finding (h : Hit) : Hit.ofFinding h.scope h.finding = h := rfl

namespace Inspection

variable {view : ProgramView} {keywords : KeywordList} {policy : Policy} {found : Matcher}

/-- All hits are found under the scope of the policy. -/
theorem scope_of_mem_hits {h : Hit} (hh : h ∈ (runWith view keywords policy found).1.hits) :
    h.scope = policy.scope := by
  rw [hits_runWith] at hh
  obtain ⟨-, m, -, hh⟩ := mem_expectedHits.1 hh
  obtain ⟨-, s, -, -, hscope, -⟩ := mem_expectedInBody.1 hh
  exact (Policy.scopeOf_eq_some_iff.1 hscope).1.symm

/-- The hits are their findings under the scope of the policy. -/
theorem hits_eq_map_finding :
    ((runWith view keywords policy found).1.hits.map Hit.finding).map (Hit.ofFinding policy.scope) =
      (runWith view keywords policy found).1.hits := by
  rw [List.map_map]
  refine (List.map_congr_left fun h hh => ?_).trans (List.map_id _)
  rw [← scope_of_mem_hits hh]
  exact h.ofFinding_finding

/-! ## One inspection searches what another one searches -/

/-- A statement is searched too: it has the same text as the one that it stands for, and is
searched if that one is. -/
def SearchedToo (p p' : Policy) (s s' : Statement) : Prop :=
  s'.text = s.text ∧ (p.isEligible s = true → p'.isEligible s' = true)

/-- What is searched in a view under a policy is searched in another view under another policy:
the same methods are in scope, and what is known of them agrees statement by statement. -/
structure Wider (v : ProgramView) (p : Policy) (v' : ProgramView) (p' : Policy) : Prop where
  methods : v'.methods = v.methods
  bodies : ∀ id, List.Forall₂ (SearchedToo p p') (knownStatements v id) (knownStatements v' id)

/-- The findings in a statement are found again where the statement is searched too. -/
theorem findings_statement {p p' : Policy} {s s' : Statement} (h : SearchedToo p p' s s')
    (id : MethodId) (index : Nat) :
    (((p.scopeOf s).toList.flatMap fun scope => (keywords.toList.filter fun k => found s.text k).map
      fun k => (⟨id, index, s.text, k, scope⟩ : Hit)).map Hit.finding).Sublist
      (((p'.scopeOf s').toList.flatMap fun scope =>
        (keywords.toList.filter fun k => found s'.text k).map
          fun k => (⟨id, index, s'.text, k, scope⟩ : Hit)).map Hit.finding) := by
  obtain ⟨htext, hsearched⟩ := h
  cases hscope : p.scopeOf s with
  | none => exact List.nil_sublist _
  | some scope =>
    have heligible : p.isEligible s = true := by
      rw [Policy.isEligible, hscope, Option.isSome_some]
    rw [Policy.isEligible_iff.1 (hsearched heligible), htext]
    simp only [Option.toList_some, List.flatMap_singleton, List.map_map]
    exact List.Sublist.refl _

/-- The findings in a body are found again, in order, where its statements are searched too. -/
theorem findings_body {p p' : Policy} {body body' : List Statement}
    (h : List.Forall₂ (SearchedToo p p') body body') (id : MethodId) :
    ((expectedInBody keywords p found id body).map Hit.finding).Sublist
      ((expectedInBody keywords p' found id body').map Hit.finding) := by
  unfold expectedInBody
  -- indices count from the beginning of the body, so the induction is for every start
  generalize 0 = start
  induction h generalizing start with
  | nil => exact List.Sublist.refl _
  | cons hs _ ih =>
    rw [List.zipIdx_cons, List.zipIdx_cons, List.flatMap_cons, List.flatMap_cons, List.map_append,
      List.map_append]
    exact (findings_statement hs id start).append (ih (start + 1))

theorem map_text_of_searchedToo {p p' : Policy} {body body' : List Statement}
    (h : List.Forall₂ (SearchedToo p p') body body') :
    body'.map Statement.text = body.map Statement.text := by
  induction h with
  | nil => rfl
  | cons hs _ ih => rw [List.map_cons, List.map_cons, hs.1, ih]

namespace Wider

variable {v v' : ProgramView} {p p' : Policy} (h : Wider v p v' p')

include h

/-- What is found is found again, in the same order. -/
theorem findings :
    ((runWith v keywords p found).1.hits.map Hit.finding).Sublist
      ((runWith v' keywords p' found).1.hits.map Hit.finding) := by
  rw [hits_runWith, hits_runWith, expectedHits, expectedHits, List.map_flatMap, List.map_flatMap,
    h.methods]
  exact List.Sublist.flatMap_right _ fun id _ => findings_body (h.bodies id) id

/-- Under policies of the same scope the hits themselves are found again. -/
theorem hits (hscope : p'.scope = p.scope) :
    (runWith v keywords p found).1.hits.Sublist (runWith v' keywords p' found).1.hits := by
  rw [← @hits_eq_map_finding v, ← @hits_eq_map_finding v', hscope]
  exact h.findings.map _

/-- Every method with a hit has one again. -/
theorem exists_hit {hit : Hit} (hhit : hit ∈ (runWith v keywords p found).1.hits) :
    ∃ hit' ∈ (runWith v' keywords p' found).1.hits, hit'.finding = hit.finding :=
  List.mem_map.1 (h.findings.subset (List.mem_map.2 ⟨hit, hhit, rfl⟩))

/-- Every keyword with a hit has one again. -/
theorem keywordsHit {k : String} (hk : k ∈ (runWith v keywords p found).1.keywordsHit) :
    k ∈ (runWith v' keywords p' found).1.keywordsHit := by
  obtain ⟨hit, hhit, rfl⟩ := mem_keywordsHit.1 hk
  obtain ⟨hit', hhit', hfinding⟩ := h.exists_hit hhit
  exact mem_keywordsHit.2 ⟨hit', hhit', congrArg (fun f => f.2.2) hfinding⟩

/-- The container statements are the same if the policies record the same container. -/
theorem containerStatements (hrecord : p'.recordContainerSymbol = p.recordContainerSymbol)
    (hsymbol : p'.containerSymbol = p.containerSymbol) :
    (runWith v' keywords p' found).1.containerStatements =
      (runWith v keywords p found).1.containerStatements := by
  rw [containerStatements_runWith, containerStatements_runWith, expectedContainer,
    expectedContainer, h.methods]
  refine List.flatMap_congr fun id _ => ?_
  unfold containerUses
  rw [hrecord, hsymbol, map_text_of_searchedToo (h.bodies id)]

end Wider

end Inspection

/-! ## Policies that search more -/

namespace Inspection

/-- An inspection of a view found no more than another one: its findings stand among those of the
other in the same order, keywords and root caller classes are included, and what does not depend on
the statements searched is the same. -/
structure Within (view : ProgramView) (fin : view.CallersFinite) (small large : Inspection) :
    Prop where
  findings : (small.hits.map Hit.finding).Sublist (large.hits.map Hit.finding)
  keywordsHit : ∀ k ∈ small.keywordsHit, k ∈ large.keywordsHit
  rootClasses : ∀ name ∈ (Resolution.run view fin small.hits).1.classes,
    name ∈ (Resolution.run view fin large.hits).1.classes
  packageKeywords : large.packageKeywords = small.packageKeywords
  containerStatements : large.containerStatements = small.containerStatements

variable {keywords : KeywordList} {found : Matcher}

/-- A policy that searches more finds at least as much. -/
theorem within_of_searched {view : ProgramView} (fin : view.CallersFinite) {p p' : Policy}
    (hsearched : ∀ s, p.isEligible s = true → p'.isEligible s = true)
    (hrecord : p'.recordContainerSymbol = p.recordContainerSymbol)
    (hsymbol : p'.containerSymbol = p.containerSymbol) :
    Within view fin (runWith view keywords p found).1 (runWith view keywords p' found).1 := by
  have hwider : Wider view p view p' :=
    ⟨rfl, fun id => List.forall₂_same.2 fun s _ => ⟨rfl, hsearched s⟩⟩
  refine ⟨hwider.findings, fun k => hwider.keywordsHit, fun name hname => ?_,
    packageKeywords_congr (fun _ => Iff.rfl) (fun _ _ => rfl) p p',
    hwider.containerStatements hrecord hsymbol⟩
  refine Resolution.classes_mono (fun hit hhit => ?_) hname
  obtain ⟨hit', hhit', hfinding⟩ := hwider.exists_hit hhit
  exact ⟨hit', hhit', congrArg (fun f => f.1.1) hfinding⟩

/-- An inspection depends on the policy only through what is searched, under which scope, and
through the container. -/
theorem runWith_congr (view : ProgramView) {p p' : Policy}
    (hscope : ∀ s, p'.scopeOf s = p.scopeOf s)
    (hrecord : p'.recordContainerSymbol = p.recordContainerSymbol)
    (hsymbol : p'.containerSymbol = p.containerSymbol) :
    runWith view keywords p' found = runWith view keywords p found := by
  have hhits : bodyHits keywords p' found = bodyHits keywords p found := bodyHits_congr hscope
  have hcontainer : containerUses p' = containerUses p := by
    funext body
    unfold containerUses
    rw [hrecord, hsymbol]
  have hmethod : Pass.inspectMethod view keywords p' found =
      Pass.inspectMethod view keywords p found := by
    funext pass id
    unfold Pass.inspectMethod
    rw [hhits, hcontainer]
  unfold runWith
  rw [hmethod]

/-- **Policies that ask for less find more.**  For every container, an inspection of the library
calls alone is within one of all interesting calls, and that one is within an inspection of all
statements, whatever it says about libraries: this makes no difference where all statements are
searched. -/
theorem inspection_policy_mono (view : ProgramView) (fin : view.CallersFinite)
    (keywords : KeywordList) (found : Matcher) (policy : Policy) (any : Bool) :
    let library := runWith view keywords
      { policy with interestedApiOnly := true, apiInLibrariesOnly := true } found
    let interesting := runWith view keywords
      { policy with interestedApiOnly := true, apiInLibrariesOnly := false } found
    let all := runWith view keywords
      { policy with interestedApiOnly := false, apiInLibrariesOnly := any } found
    Within view fin library.1 interesting.1 ∧ Within view fin interesting.1 all.1 ∧
    ∀ other, runWith view keywords
      { policy with interestedApiOnly := false, apiInLibrariesOnly := other } found = all := by
  refine ⟨within_of_searched fin (fun s => ?_) rfl rfl,
    within_of_searched fin (fun s => ?_) rfl rfl, fun other => ?_⟩
  · exact Policy.isEligible_of_asks_less (fun _ => rfl) (fun h => absurd h Bool.false_ne_true)
  · exact Policy.isEligible_of_asks_less (fun _ => rfl) (fun _ => .inr rfl)
  · exact runWith_congr view (fun _ => rfl) rfl rfl

/-- Three methods, each of which holds the keyword: in a statement without a call, in a call that
is interesting, and in one that is also a library's. -/
def threeKinds : Tables where
  enumeration := [2, 0, 1]
  methods := [
    ⟨"<a.Main: void run()>", 0, [⟨"plain key", none⟩]⟩,
    ⟨"<a.Main: void stop()>", 0, [⟨"log key", some ⟨"<android.util.Log: int d()>", true, false⟩⟩]⟩,
    ⟨"<b.Net: void send()>", 1, [⟨"http key", some ⟨"<okhttp3.Call: void go()>", true, true⟩⟩]⟩]
  classes := [.ofName "a.Main", .ofName "b.Net"]
  callers := [(2, [1, 2])]
  methodCount := 3

/-- One, two and three findings, each time in the order of the methods in scope. -/
theorem inspection_policy_threeKinds :
    let library := (runWith threeKinds.view (.ofList ["key"])
      { interestedApiOnly := true, apiInLibrariesOnly := true } .substring).1
    let interesting := (runWith threeKinds.view (.ofList ["key"])
      { interestedApiOnly := true, apiInLibrariesOnly := false } .substring).1
    let all := (runWith threeKinds.view (.ofList ["key"])
      { interestedApiOnly := false, apiInLibrariesOnly := true } .substring).1
    library.hits.map Hit.finding = [((2, 0), "http key", "key")] ∧
    interesting.hits.map Hit.finding =
      [((2, 0), "http key", "key"), ((1, 0), "log key", "key")] ∧
    all.hits.map Hit.finding =
      [((2, 0), "http key", "key"), ((0, 0), "plain key", "key"), ((1, 0), "log key", "key")] ∧
    Within threeKinds.view threeKinds.callersFinite library interesting ∧
    Within threeKinds.view threeKinds.callersFinite interesting all := by
  obtain ⟨hlibrary, hinteresting, -⟩ := inspection_policy_mono threeKinds.view
    threeKinds.callersFinite (.ofList ["key"]) .substring {} true
  refine ⟨?_, ?_, ?_, hlibrary, hinteresting⟩
  · rw [hits_runWith]
    decide
  · rw [hits_runWith]
    decide
  · rw [hits_runWith]
    decide

end Inspection
end KeywordAudit
