import KeywordAudit.Analysis.Resolution
import KeywordAudit.Proofs.Inspection

/-!
# Statements that use the container

The pass that looks for keywords also records the statements that use the container.  It does so
before it asks whether a statement is searched, so the recorded statements are told by the symbol
alone: they are the statements in scope that mention it, in order, each as often as it is passed.
Nothing else in the pass reads what was recorded, and nothing else depends on the symbol: passes
that record different things agree in all the rest, method by method.
-/

namespace KeywordAudit

/-! ## Statements in scope -/

/-- A symbol stands somewhere in the text of a statement. -/
def Statement.Mentions (s : Statement) (symbol : String) : Prop :=
  ∃ before after, s.text = before ++ symbol ++ after

instance (s : Statement) (symbol : String) : Decidable (s.Mentions symbol) :=
  decidable_of_iff (Text.contains s.text symbol = true) Text.contains_iff

/-- The statements in scope: those of the methods in scope that are known, one after another. -/
def ProgramView.statementsInScope (v : ProgramView) : List Statement :=
  (v.methods.filter fun id => (v.method id).isSome).flatMap v.statements

namespace Inspection

variable {view : ProgramView} {keywords : KeywordList} {policy : Policy} {found : Matcher}

/-- The statements in scope are the known statements of the methods in scope. -/
theorem statementsInScope_eq :
    view.statementsInScope = view.methods.flatMap (knownStatements view) := by
  unfold ProgramView.statementsInScope
  induction view.methods with
  | nil => rfl
  | cons id ids ih =>
    rw [List.flatMap_cons, ← ih]
    cases hm : view.method id with
    | none => rw [List.filter_cons_of_neg (by simp [hm]), knownStatements_of_none hm,
        List.nil_append]
    | some m => rw [List.filter_cons_of_pos (by simp [hm]), knownStatements_of_some hm,
        List.flatMap_cons]

/-! ## What is recorded -/

/-- A policy that records nothing, or knows no symbol, finds no use of the container. -/
theorem containerUses_eq_nil
    (h : policy.recordContainerSymbol = false ∨ policy.containerSymbol = "")
    (body : List Statement) : containerUses policy body = [] := by
  have hoff : ¬ (policy.recordContainerSymbol && decide (policy.containerSymbol ≠ "")) = true := by
    rcases h with hrecord | hsymbol
    · simp [hrecord]
    · simp [hsymbol]
  rw [containerUses, if_neg hoff]

/-- Else the uses in a body are its statements that mention the symbol. -/
theorem containerUses_eq_filter (hrecord : policy.recordContainerSymbol = true)
    (hsymbol : policy.containerSymbol ≠ "") (body : List Statement) :
    containerUses policy body =
      (body.filter fun s => s.Mentions policy.containerSymbol).map Statement.text := by
  have hon : (policy.recordContainerSymbol && decide (policy.containerSymbol ≠ "")) = true := by
    simp [hrecord, hsymbol]
  rw [containerUses, if_pos hon, List.filter_map]
  congr 1
  apply List.filter_congr
  intro s _
  have hmentions : Text.contains s.text policy.containerSymbol = true ↔
      s.Mentions policy.containerSymbol := Text.contains_iff
  simp only [Function.comp_apply, ← hmentions, Bool.decide_eq_true]

theorem containerStatements_eq_nil
    (h : policy.recordContainerSymbol = false ∨ policy.containerSymbol = "") :
    (runWith view keywords policy found).1.containerStatements = [] := by
  rw [containerStatements_runWith, expectedContainer]
  apply List.flatMap_eq_nil_iff.2
  intro id _
  exact containerUses_eq_nil h _

/-- What is recorded are the statements in scope that mention the symbol. -/
theorem containerStatements_eq_filter (hrecord : policy.recordContainerSymbol = true)
    (hsymbol : policy.containerSymbol ≠ "") :
    (runWith view keywords policy found).1.containerStatements =
      (view.statementsInScope.filter fun s => s.Mentions policy.containerSymbol).map
        Statement.text := by
  rw [containerStatements_runWith, expectedContainer, statementsInScope_eq, List.filter_flatMap,
    List.map_flatMap]
  exact List.flatMap_congr fun id _ => containerUses_eq_filter hrecord hsymbol _

/-! ## What is recorded makes no difference -/

/-- A pass with other container statements. -/
def Pass.recording (pass : Pass) (statements : Array String) : Pass :=
  { pass with containerStatements := statements }

/-- A class is looked at whatever was recorded. -/
theorem inspectClass_recording (pass : Pass) (statements : Array String) (id : ClassId) :
    (pass.recording statements).inspectClass view keywords found id =
      (pass.inspectClass view keywords found id).recording statements := by
  have hframe : (pass.recording statements).seen = pass.seen := rfl
  unfold Pass.inspectClass
  rw [hframe]
  by_cases hseen : pass.seen.contains id = true
  · rw [if_pos hseen, if_pos hseen]
  · rw [if_neg hseen, if_neg hseen]
    cases view.classDecl id with
    | none => rfl
    | some c => rfl

section Apart

variable {policy' : Policy} (hscope : ∀ s, policy'.scopeOf s = policy.scopeOf s)

include hscope

/-- Under policies that search the same statements, a method changes two passes that agree apart
from the container statements in such a way that they still do. -/
theorem inspectMethod_recording (pass : Pass) (statements : Array String) (id : MethodId) :
    ∃ statements', (pass.recording statements).inspectMethod view keywords policy' found id =
      (pass.inspectMethod view keywords policy found id).recording statements' := by
  unfold Pass.inspectMethod
  cases view.method id with
  | none => exact ⟨statements, rfl⟩
  | some m =>
    refine ⟨statements ++ containerUses policy' (view.statements id), ?_⟩
    dsimp only
    rw [inspectClass_recording, bodyHits_congr hscope]
    rfl

theorem foldl_inspectMethod_recording (ids : List MethodId) (pass : Pass)
    (statements : Array String) :
    ∃ statements', ids.foldl (Pass.inspectMethod view keywords policy' found)
        (pass.recording statements) =
      (ids.foldl (Pass.inspectMethod view keywords policy found) pass).recording statements' := by
  induction ids generalizing pass statements with
  | nil => exact ⟨statements, rfl⟩
  | cons id ids ih =>
    obtain ⟨next, hnext⟩ :=
      @inspectMethod_recording view keywords policy found policy' hscope pass statements id
    rw [List.foldl_cons, List.foldl_cons, hnext]
    exact ih _ next

/-- Inspections that search the same statements agree apart from the container statements, and
their logs are the same. -/
theorem runWith_apart :
    (runWith view keywords policy' found).1.hits = (runWith view keywords policy found).1.hits ∧
    (runWith view keywords policy' found).1.keywordsHit =
      (runWith view keywords policy found).1.keywordsHit ∧
    (runWith view keywords policy' found).1.packageKeywords =
      (runWith view keywords policy found).1.packageKeywords ∧
    (runWith view keywords policy' found).2 = (runWith view keywords policy found).2 := by
  obtain ⟨statements, hpass⟩ := @foldl_inspectMethod_recording view keywords policy found policy'
    hscope view.methods {} #[]
  have hempty : ({} : Pass).recording #[] = {} := rfl
  rw [hempty] at hpass
  unfold runWith
  rw [hpass]
  exact ⟨rfl, rfl, rfl, rfl⟩

end Apart

/-- **The container statements.**  A policy that does not record them, or whose symbol is empty,
gives none.  Else they are the texts of all statements in scope that mention the symbol, in the
order of the methods in scope and of their bodies, whether or not a statement is searched and
whatever the keywords are.  Recording something else changes nothing besides: neither the hits, nor
the keywords, nor the log, nor what any resolution makes of the hits. -/
theorem inspection_container_exact (view : ProgramView) (keywords : KeywordList) (policy : Policy)
    (found : Matcher) :
    let inspected := runWith view keywords policy found
    (policy.recordContainerSymbol = false ∨ policy.containerSymbol = "" →
      inspected.1.containerStatements = []) ∧
    (policy.recordContainerSymbol = true → policy.containerSymbol ≠ "" →
      inspected.1.containerStatements =
        (view.statementsInScope.filter fun s => s.Mentions policy.containerSymbol).map
          Statement.text) ∧
    ∀ (record : Bool) (symbol : String),
      let other := runWith view keywords
        { policy with recordContainerSymbol := record, containerSymbol := symbol } found
      other.1.hits = inspected.1.hits ∧
      other.1.keywordsHit = inspected.1.keywordsHit ∧
      other.1.packageKeywords = inspected.1.packageKeywords ∧
      other.2 = inspected.2 ∧
      ∀ (v : ProgramView) (fin : v.CallersFinite),
        Resolution.run v fin other.1.hits = Resolution.run v fin inspected.1.hits := by
  intro inspected
  refine ⟨containerStatements_eq_nil, containerStatements_eq_filter, ?_⟩
  intro record symbol other
  obtain ⟨hhits, hkeywords, hpackages, hlog⟩ :
      other.1.hits = inspected.1.hits ∧ other.1.keywordsHit = inspected.1.keywordsHit ∧
      other.1.packageKeywords = inspected.1.packageKeywords ∧ other.2 = inspected.2 :=
    runWith_apart fun _ => rfl
  refine ⟨hhits, hkeywords, hpackages, hlog, ?_⟩
  intro v fin
  rw [hhits]

/-- A method in scope twice and an unknown one between, with uses of the container in a searched
statement, in one that holds no keyword and in one that makes no call. -/
def cachedValues : Tables where
  enumeration := [1, 7, 0, 1]
  methods := [
    ⟨"<a.Main: void run()>", 0, [
      ⟨"map.put(key)", some ⟨"<java.util.HashMap: void put()>", true, false⟩⟩,
      ⟨"map.get(name)", some ⟨"<java.util.HashMap: int get()>", true, false⟩⟩]⟩,
    ⟨"<a.Main: void stop()>", 0, [⟨"drop key", none⟩, ⟨"drop map", none⟩]⟩]
  classes := [.ofName "a.Main"]
  callers := []
  methodCount := 2

/-- Four uses are recorded, two of them of the same statement; without a symbol none is, and the
one hit is there either way. -/
theorem inspection_container_cachedValues :
    let on : Policy := { recordContainerSymbol := true, containerSymbol := "map" }
    let off : Policy := { recordContainerSymbol := true, containerSymbol := "" }
    let inspected := (runWith cachedValues.view (.ofList ["key"]) on .substring).1
    let other := (runWith cachedValues.view (.ofList ["key"]) off .substring).1
    on.recordContainerSymbol = true ∧ on.containerSymbol ≠ "" ∧
    inspected.containerStatements = ["drop map", "map.put(key)", "map.get(name)", "drop map"] ∧
    off.containerSymbol = "" ∧ other.containerStatements = [] ∧
    inspected.hits = [⟨0, 0, "map.put(key)", "key", .interestingApi⟩] ∧
    other.hits = inspected.hits := by
  intro on off inspected other
  obtain ⟨-, hrecorded, hsame⟩ :=
    inspection_container_exact cachedValues.view (.ofList ["key"]) on .substring
  obtain ⟨hnone, -, -⟩ :=
    inspection_container_exact cachedValues.view (.ofList ["key"]) off .substring
  have hsymbol : on.containerSymbol ≠ "" := by decide
  refine ⟨rfl, hsymbol, ?_, rfl, hnone (.inr rfl), ?_, (hsame true "").1⟩
  · rw [hrecorded rfl hsymbol]
    decide
  · show (runWith cachedValues.view (.ofList ["key"]) on .substring).1.hits = _
    rw [hits_runWith]
    decide

end Inspection
end KeywordAudit
