import KeywordAudit.Proofs.ReportOrder
import KeywordAudit.Proofs.WiderSearch

/-!
# Classifications with more patterns

Of a model a classification decides two things: the flags of calls that the model leaves open, and
the calls from synthetic entry classes.  If two classifications have the same synthetic entry
classes, the programs of a model differ in open flags alone.  With more patterns more flags hold,
so more statements are searched, and by `Inspection.Wider` more is found; where no open flag is
asked for, nothing can differ.
-/

namespace KeywordAudit

/-! ## More patterns -/

/-- A text that fits one of the patterns fits one of more patterns. -/
theorem Glob.fitsAny_mono {patterns patterns' : List String} (h : patterns ⊆ patterns')
    {text : String} (hfits : fitsAny patterns text = true) : fitsAny patterns' text = true := by
  obtain ⟨pattern, hpattern, hfit⟩ := List.any_eq_true.1 hfits
  exact List.any_eq_true.2 ⟨pattern, h hpattern, hfit⟩

/-- A flag that holds, given or by a pattern, holds with more patterns. -/
theorem Classification.flag_mono {patterns patterns' : List String} (h : patterns ⊆ patterns')
    {target : String} {given : Option Bool}
    (hflag : given.getD (targetFits patterns target) = true) :
    given.getD (targetFits patterns' target) = true := by
  cases given with
  | some flag => exact hflag
  | none =>
    rw [Option.getD_none, targetFits, Option.any_eq_true] at hflag ⊢
    obtain ⟨name, hname, hfits⟩ := hflag
    exact ⟨name, hname, Glob.fitsAny_mono h hfits⟩

/-! ## Searching the same -/

/-- Two inspections under one policy that search the same statements find the same. -/
theorem Inspection.Wider.eq_of_both {v v' : ProgramView} {policy : Policy} {keywords : KeywordList}
    {found : Matcher} (h : Wider v policy v' policy) (h' : Wider v' policy v policy)
    (hpackage : ∀ id, v'.package? id = v.package? id) :
    (runWith v' keywords policy found).1 = (runWith v keywords policy found).1 := by
  have hhits : (runWith v' keywords policy found).1.hits =
      (runWith v keywords policy found).1.hits := (h'.hits rfl).antisymm (h.hits rfl)
  have hkeywords : (runWith v' keywords policy found).1.keywordsHit =
      (runWith v keywords policy found).1.keywordsHit :=
    NameSet.ext fun _ => ⟨h'.keywordsHit, h.keywordsHit⟩
  have hpackages : (runWith v' keywords policy found).1.packageKeywords =
      (runWith v keywords policy found).1.packageKeywords := by
    refine packageKeywords_congr (fun id => ?_) (fun id _ => ?_) policy policy
    · rw [h.methods]
    · exact hpackage id
  have hcontainer : (runWith v' keywords policy found).1.containerStatements =
      (runWith v keywords policy found).1.containerStatements := h.containerStatements rfl rfl
  calc (runWith v' keywords policy found).1
      = ⟨(runWith v' keywords policy found).1.hits,
          (runWith v' keywords policy found).1.keywordsHit,
          (runWith v' keywords policy found).1.packageKeywords,
          (runWith v' keywords policy found).1.containerStatements⟩ := rfl
    _ = (runWith v keywords policy found).1 := by rw [hhits, hkeywords, hpackages, hcontainer]

/-- A resolution depends on the callers and on the classes that declare methods. -/
theorem Resolution.run_congr {v v' : ProgramView} (hcallers : v'.callers = v.callers)
    (hcount : v'.methodCount = v.methodCount)
    (hclass : ∀ id, v'.declaringClass id = v.declaringClass id) (fin : v.CallersFinite)
    (fin' : v'.CallersFinite) (hits : List Hit) : run v' fin' hits = run v fin hits := by
  have hsearch : ∀ id, search v' fin' id = search v fin id := by
    intro id
    unfold search
    rw [ProgramView.rootCallers_congr hcallers hcount (fin id) (fin' id)]
  have hnames : declaringNames v' = declaringNames v := by
    funext ids
    unfold declaringNames
    simp only [hclass]
  have hclassless : classlessEvents v' = classlessEvents v := by
    funext ids
    unfold classlessEvents
    simp only [hclass]
  have htrace : trace v' fin' = trace v fin := by
    funext state id
    unfold trace
    rw [hsearch, hnames, hclassless]
  unfold run traceAll
  rw [htrace]

namespace Model

/-! ## What is searched in a model -/

/-- A statement of a program is searched exactly if its entry is. -/
theorem isEligible_statement {c : Classification} {policy : Policy} {s : StatementEntry} :
    policy.isEligible (statement c s) = true ↔ Searched c policy s := by
  rw [Policy.isEligible, Option.isSome_iff_exists, scopeOf_statement]

/-- A statement that is searched is searched with more patterns. -/
theorem searched_mono {c c' : Classification} {policy : Policy} {s : StatementEntry}
    (hinteresting : c.interestingApis ⊆ c'.interestingApis)
    (hlibrary : c.libraryPackages ⊆ c'.libraryPackages) (h : Searched c policy s) :
    Searched c' policy s := by
  intro hasks
  obtain ⟨i, hi, hcalls, hin⟩ := h hasks
  exact ⟨i, hi, Classification.flag_mono hinteresting hcalls,
    fun hasksLibrary => Classification.flag_mono hlibrary (hin hasksLibrary)⟩

/-- Where the policy asks for no call, every statement is searched. -/
theorem searched_of_all (c : Classification) {policy : Policy}
    (h : policy.interestedApiOnly = false) (s : StatementEntry) : Searched c policy s := by
  intro hasks
  rw [h] at hasks
  exact absurd hasks (by decide)

/-- Every call of a model gives both flags. -/
def FlagsGiven (m : Model) : Prop :=
  ∀ e ∈ m.methods, ∀ s ∈ e.body, ∀ i, s.invocation = some i →
    i.interesting.isSome = true ∧ i.library.isSome = true

/-- Where both flags are given, patterns make no difference. -/
theorem searched_of_given {c : Classification} (c' : Classification) {policy : Policy}
    {s : StatementEntry} (hgiven : ∀ i, s.invocation = some i →
      i.interesting.isSome = true ∧ i.library.isSome = true) (h : Searched c policy s) :
    Searched c' policy s := by
  intro hasks
  obtain ⟨i, hi, hcalls, hin⟩ := h hasks
  obtain ⟨hinteresting, hlibrary⟩ := hgiven i hi
  obtain ⟨interesting, heq⟩ := Option.isSome_iff_exists.1 hinteresting
  obtain ⟨library, heq'⟩ := Option.isSome_iff_exists.1 hlibrary
  rw [heq, Option.getD_some] at hcalls
  rw [heq', Option.getD_some] at hin
  refine ⟨i, hi, ?_, fun hasksLibrary => ?_⟩
  · rw [heq, Option.getD_some]
    exact hcalls
  · rw [heq', Option.getD_some]
    exact hin hasksLibrary

/-! ## The programs of one model -/

/-- The statement entries of the method with the given number. -/
def bodyOf (m : Model) (id : MethodId) : List StatementEntry :=
  (m.methods[id]?).elim [] MethodEntry.body

theorem mem_bodyOf {m : Model} {id : MethodId} {s : StatementEntry} (hs : s ∈ m.bodyOf id) :
    ∃ e ∈ m.methods, s ∈ e.body := by
  unfold bodyOf at hs
  cases he : m.methods[id]? with
  | none =>
    rw [he] at hs
    exact absurd hs List.not_mem_nil
  | some e =>
    rw [he] at hs
    exact ⟨e, List.mem_of_getElem? he, hs⟩

/-- The statements of a program are those of the model's entries. -/
theorem Describes.knownStatements_eq {c : Classification} {m : Model} {p : Program}
    (h : m.Describes c p) (id : MethodId) :
    Inspection.knownStatements p.view id = (m.bodyOf id).map (statement c) := by
  rw [ProgramView.knownStatements_eq, p.standard_view.statements_eq, h.outline?_eq, bodyOf]
  cases m.methods[id]? with
  | none => rfl
  | some e =>
    rw [Option.map_some, Option.toList_some, List.flatMap_singleton]
    rfl

section TwoClassifications

variable {c c' : Classification} {m : Model} {p p' : Program} (hok : (m.build c).1 = .ok p)
  (hok' : (m.build c').1 = .ok p')

include hok hok'

theorem methods_of_build : p'.view.methods = p.view.methods := by
  show List.range p'.methodCount = List.range p.methodCount
  rw [(describes_of_build hok).methodCount_eq, (describes_of_build hok').methodCount_eq]

theorem declaringClass_of_build (id : MethodId) :
    p'.view.declaringClass id = p.view.declaringClass id := by
  rw [p.standard_view.declaringClass_eq, p'.standard_view.declaringClass_eq,
    (describes_of_build hok).outline?_eq, (describes_of_build hok').outline?_eq, Option.bind_map,
    Option.bind_map]
  rfl

theorem package?_of_build (id : MethodId) : p'.view.package? id = p.view.package? id := by
  rw [ProgramView.package?_eq, ProgramView.package?_eq, (describes_of_build hok).outline?_eq,
    (describes_of_build hok').outline?_eq, Option.bind_map, Option.bind_map]
  rfl

/-- The callers depend on the synthetic entry classes alone. -/
theorem callers_of_build (hsynthetic : c'.syntheticEntryClasses = c.syntheticEntryClasses) :
    p'.view.callers = p.view.callers := by
  have hcalls : m.Calls c' = m.Calls c := by
    funext caller callee
    unfold Calls
    rw [hsynthetic]
  funext id
  refine (increasing_callers_of_build hok' id).eq_of_mem_iff (increasing_callers_of_build hok id)
    fun x => ?_
  have hiff := (describes_of_build hok).callers x id
  rw [← hcalls] at hiff
  exact ((describes_of_build hok').callers x id).trans hiff.symm

/-- What is searched with one classification is searched with the other, if this holds of the
entries. -/
theorem wider_of_build {policy : Policy}
    (hsearched : ∀ e ∈ m.methods, ∀ s ∈ e.body, Searched c policy s → Searched c' policy s) :
    Inspection.Wider p.view policy p'.view policy := by
  refine ⟨methods_of_build hok hok', fun id => ?_⟩
  rw [(describes_of_build hok).knownStatements_eq, (describes_of_build hok').knownStatements_eq,
    List.forall₂_map_left_iff, List.forall₂_map_right_iff, List.forall₂_same]
  intro s hs
  obtain ⟨e, he, hs⟩ := mem_bodyOf hs
  refine ⟨rfl, fun heligible => ?_⟩
  exact isEligible_statement.2 (hsearched e he s hs (isEligible_statement.1 heligible))

/-- Given the same hits, the resolutions are the same. -/
theorem resolution_of_build (hsynthetic : c'.syntheticEntryClasses = c.syntheticEntryClasses)
    (hits : List Hit) :
    Resolution.run p'.view p'.callersFinite hits = Resolution.run p.view p.callersFinite hits := by
  have hcount : p'.view.methodCount = p.view.methodCount :=
    (describes_of_build hok').methodCount_eq.trans (describes_of_build hok).methodCount_eq.symm
  exact Resolution.run_congr (callers_of_build hok hok' hsynthetic) hcount
    (declaringClass_of_build hok hok') p.callersFinite p'.callersFinite hits

end TwoClassifications

/-- **Classifications with more patterns find more, and open flags are all that they decide.**  If
a model is built with one classification, it is built with every other one that has the same
synthetic entry classes.  If the other one has all patterns of the first, in any order and with any
repetition, the hits of the first are found again in the same order, and its root caller classes
are root caller classes again.  If the policy asks for no call, or if the model leaves no flag
open, both analyses find the same, whatever the patterns are. -/
theorem analysis_classification_mono (c c' : Classification) (m : Model) (keywords : KeywordList)
    (policy : Policy) (found : Matcher) (p : Program) (hok : (m.build c).1 = .ok p)
    (hsynthetic : c'.syntheticEntryClasses = c.syntheticEntryClasses) :
    ∃ p', (m.build c').1 = .ok p' ∧
      let inspection := (Inspection.runWith p.view keywords policy found).1
      let inspection' := (Inspection.runWith p'.view keywords policy found).1
      let resolution := (Resolution.run p.view p.callersFinite inspection.hits).1
      let resolution' := (Resolution.run p'.view p'.callersFinite inspection'.hits).1
      (c.interestingApis ⊆ c'.interestingApis → c.libraryPackages ⊆ c'.libraryPackages →
        inspection.hits.Sublist inspection'.hits ∧
        ∀ name ∈ resolution.classes, name ∈ resolution'.classes) ∧
      (policy.interestedApiOnly = false ∨ m.FlagsGiven →
        inspection' = inspection ∧ resolution' = resolution) := by
  obtain ⟨p', hok', -⟩ := m.exists_program c' (nodup_of_build hok)
  refine ⟨p', hok', fun hinteresting hlibrary => ?_, fun hfixed => ?_⟩
  · have hwider : Inspection.Wider p.view policy p'.view policy :=
      wider_of_build hok hok' fun _ _ _ _ => searched_mono hinteresting hlibrary
    have hhits := @Inspection.Wider.hits keywords found p.view p'.view policy policy hwider rfl
    refine ⟨hhits, fun name hname => ?_⟩
    rw [resolution_of_build hok hok' hsynthetic]
    exact Resolution.classes_mono (fun hit hhit => ⟨hit, hhits.subset hhit, rfl⟩) hname
  · -- each of the two searches what the other one searches
    have hsame : ∀ d d' : Classification, ∀ e ∈ m.methods, ∀ s ∈ e.body,
        Searched d policy s → Searched d' policy s := by
      intro d d' e he s hs hsearched
      rcases hfixed with hall | hgiven
      · exact searched_of_all d' hall s
      · exact searched_of_given d' (hgiven e he s hs) hsearched
    have hinspection : (Inspection.runWith p'.view keywords policy found).1 =
        (Inspection.runWith p.view keywords policy found).1 :=
      (wider_of_build hok hok' (hsame c c')).eq_of_both (wider_of_build hok' hok (hsame c' c))
        (package?_of_build hok hok')
    refine ⟨hinspection, ?_⟩
    rw [hinspection, resolution_of_build hok hok' hsynthetic]

/-- A method with two calls whose flags are open in part, and a method that calls it. -/
def openModel : Model where
  methods := [
    ⟨"<a.Main: void run()>", "a.Main", []⟩,
    ⟨"<b.Net: void send()>", "b.Net",
      [⟨"url key", some ⟨"<java.net.URL: void open()>", none, none⟩⟩,
        ⟨"http key", some ⟨"<okhttp3.Call: void go()>", none, some true⟩⟩]⟩]
  calls := [⟨"<a.Main: void run()>", "<b.Net: void send()>"⟩]

/-- One pattern more makes the second call interesting too; the order of the patterns and a
repetition do not matter.  Where all statements are searched, the inspections are the same. -/
theorem analysis_classification_openModel :
    ∃ p p', (openModel.build { interestingApis := ["java.*"] }).1 = .ok p ∧
      (openModel.build { interestingApis := ["okhttp3.*", "java.*", "okhttp3.*"] }).1 = .ok p' ∧
      let hits := (Inspection.run p.view (.ofList ["key"]) {}).1.hits
      let hits' := (Inspection.run p'.view (.ofList ["key"]) {}).1.hits
      hits.map Hit.text = ["url key"] ∧ hits'.map Hit.text = ["url key", "http key"] ∧
      hits.Sublist hits' ∧
      (Inspection.run p'.view (.ofList ["key"]) { interestedApiOnly := false }).1 =
        (Inspection.run p.view (.ofList ["key"]) { interestedApiOnly := false }).1 := by
  obtain ⟨p, hok, h⟩ := openModel.exists_program { interestingApis := ["java.*"] } (by decide)
  obtain ⟨p', hok', hmore, -⟩ := analysis_classification_mono { interestingApis := ["java.*"] }
    { interestingApis := ["okhttp3.*", "java.*", "okhttp3.*"] } openModel (.ofList ["key"]) {}
    .substring p hok rfl
  obtain ⟨q, hq, -, hsame⟩ := analysis_classification_mono { interestingApis := ["java.*"] }
    { interestingApis := ["okhttp3.*", "java.*", "okhttp3.*"] } openModel (.ofList ["key"])
    { interestedApiOnly := false } .substring p hok rfl
  rw [hok', Except.ok.injEq] at hq
  rw [← hq] at hsame
  have hhits : ∀ {c : Classification} {q : Program}, openModel.Describes c q →
      (Inspection.run q.view (.ofList ["key"]) {}).1.hits =
        (List.range openModel.methods.length).flatMap fun id =>
          Inspection.expectedInBody (.ofList ["key"]) {} .substring id
            ((openModel.bodyOf id).map (statement c)) := by
    intro c q hq
    rw [← hq.methodCount_eq]
    simp only [← hq.knownStatements_eq]
    exact Inspection.hits_runWith
  refine ⟨p, p', hok, hok', ?_, ?_, (hmore (by decide) (by decide)).1, (hsame (.inl rfl)).1⟩
  · rw [hhits h]
    decide
  · rw [hhits (describes_of_build hok')]
    decide

end Model
end KeywordAudit
