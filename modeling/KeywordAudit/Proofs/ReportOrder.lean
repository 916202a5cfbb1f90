import KeywordAudit.Proofs.ModelProgram
import KeywordAudit.Proofs.PackageKeywords
import KeywordAudit.Proofs.SessionCalls
import KeywordAudit.Report.Document

/-!
# The order of classes and calls

The order in which a model lists its classes decides their numbers, and a call may be listed in
any place and more than once.  A report shows none of this.  It reads a program through its view,
and of a class it sees only what the outline of a method shows; the callers of a method come in
increasing order, so even the order of the search does not depend on the order of the calls.
-/

namespace KeywordAudit

/-! ## Views that differ in the numbers of classes -/

/-- The outline of a method; none if the method is not known. -/
def ProgramView.outline? (v : ProgramView) (id : MethodId) : Option Outline :=
  (v.method id).map fun m => ⟨m.signature, v.classDecl m.owner, m.body⟩

/-- Two views are alike if they differ at most in the numbers of the classes. -/
structure ProgramView.Alike (v v' : ProgramView) : Prop where
  methods : v'.methods = v.methods
  outline : ∀ id, v'.outline? id = v.outline? id
  callers : v'.callers = v.callers
  methodCount : v'.methodCount = v.methodCount
  statements : v'.statements = v.statements
  declaringClass : v'.declaringClass = v.declaringClass

namespace ProgramView

theorem map_signature_method (v : ProgramView) (id : MethodId) :
    (v.method id).map Method.signature = (v.outline? id).map Outline.signature := by
  rw [outline?, Option.map_map]
  rfl

theorem package?_eq (v : ProgramView) (id : MethodId) :
    v.package? id = (v.outline? id).bind fun o => o.owner.map ClassDecl.package := by
  rw [outline?, Option.bind_map]
  rfl

theorem knownStatements_eq (v : ProgramView) (id : MethodId) :
    Inspection.knownStatements v id = (v.outline? id).toList.flatMap fun _ => v.statements id := by
  rw [Inspection.knownStatements, outline?]
  cases v.method id with
  | none => rfl
  | some m => rfl

theorem Standard.statements_eq {v : ProgramView} (h : v.Standard) (id : MethodId) :
    v.statements id = ((v.outline? id).map Outline.body).getD [] := by
  rw [h.statements, outline?, Option.map_map]
  rfl

theorem Standard.declaringClass_eq {v : ProgramView} (h : v.Standard) (id : MethodId) :
    v.declaringClass id = (v.outline? id).bind Outline.owner := by
  rw [h.declaringClass, outline?, Option.bind_map]
  rfl

/-- The short name of a method is read off its signature and its class. -/
theorem shortName_eq (v : ProgramView) (id : MethodId) :
    v.shortName id = ((v.method id).map Method.signature).bind fun signature =>
      (Descriptor.parse? signature).map fun d =>
        s!"{((v.declaringClass id).map ClassDecl.simpleName).getD d.className}.{d.name}" := by
  unfold shortName
  cases v.method id with
  | none => rfl
  | some method =>
    rw [Option.map_some, Option.bind_some]
    show (Descriptor.parse? method.signature).bind _ = _
    cases Descriptor.parse? method.signature with
    | none => rfl
    | some d => rfl

/-- The root callers depend on the callers and on nothing else that a view shows. -/
theorem rootCallers_congr {v v' : ProgramView} (hcallers : v'.callers = v.callers)
    (hcount : v'.methodCount = v.methodCount) {start : MethodId}
    (fin : FinitelyCalled v.callers start) (fin' : FinitelyCalled v'.callers start) :
    v'.rootCallers start fin' = v.rootCallers start fin := by
  obtain ⟨methods, method, classDecl, callers, methodCount, statements, declaringClass⟩ := v
  obtain ⟨methods', method', classDecl', callers', methodCount', statements', declaringClass'⟩ := v'
  dsimp only at hcallers hcount
  subst hcallers hcount
  rfl

namespace Alike

variable {v v' : ProgramView} (h : v.Alike v')

include h

theorem signature (id : MethodId) :
    (v'.method id).map Method.signature = (v.method id).map Method.signature := by
  rw [map_signature_method, map_signature_method, h.outline]

/-! ## The inspection -/

/-- The statements that are inspected are the same for both views. -/
theorem knownStatements :
    Inspection.knownStatements v' = Inspection.knownStatements v := by
  funext id
  rw [knownStatements_eq, knownStatements_eq, h.outline, h.statements]

section Inspection

variable (keywords : KeywordList) (policy : Policy)

theorem hits : (Inspection.run v' keywords policy).1.hits =
    (Inspection.run v keywords policy).1.hits := by
  rw [Inspection.run, Inspection.run, Inspection.hits_runWith, Inspection.hits_runWith,
    Inspection.expectedHits, Inspection.expectedHits, h.methods, h.knownStatements]

theorem keywordsHit : (Inspection.run v' keywords policy).1.keywordsHit =
    (Inspection.run v keywords policy).1.keywordsHit := by
  have hhits := h.hits keywords policy
  rw [Inspection.run, Inspection.run] at hhits ⊢
  refine NameSet.ext fun k => ?_
  rw [Inspection.mem_keywordsHit, Inspection.mem_keywordsHit, hhits]

theorem packageKeywords : (Inspection.run v' keywords policy).1.packageKeywords =
    (Inspection.run v keywords policy).1.packageKeywords := by
  refine Inspection.packageKeywords_congr (fun id => ?_) (fun id _ => ?_) policy policy
  · rw [h.methods]
  · rw [package?_eq, package?_eq, h.outline]

theorem containerStatements : (Inspection.run v' keywords policy).1.containerStatements =
    (Inspection.run v keywords policy).1.containerStatements := by
  rw [Inspection.run, Inspection.run, Inspection.containerStatements_runWith,
    Inspection.containerStatements_runWith, Inspection.expectedContainer,
    Inspection.expectedContainer, h.methods, h.knownStatements]

end Inspection

/-! ## The resolution -/

section Resolution

variable (fin : v.CallersFinite) (fin' : v'.CallersFinite) (hits : List Hit)

/-- Both views lead to the same root callers in the same order. -/
theorem rootsFor (id : MethodId) :
    (Resolution.run v' fin' hits).1.rootsFor id = (Resolution.run v fin hits).1.rootsFor id := by
  rw [Resolution.rootsFor, Resolution.rootsFor, Resolution.lookup_run, Resolution.lookup_run,
    rootCallers_congr h.callers h.methodCount (fin id) (fin' id)]

theorem classes :
    (Resolution.run v' fin' hits).1.classes = (Resolution.run v fin hits).1.classes := by
  refine NameSet.ext fun name => ?_
  rw [Resolution.mem_classes_run, Resolution.mem_classes_run]
  simp only [h.declaringClass, rootCallers_congr h.callers h.methodCount (fin _) (fin' _)]

end Resolution

/-! ## Names in reports -/

theorem methodText (id : MethodId) :
    ReportDocument.methodText v' id = ReportDocument.methodText v id := by
  unfold ReportDocument.methodText signatureOr
  rw [h.signature]

theorem shortName (id : MethodId) : v'.shortName id = v.shortName id := by
  rw [shortName_eq, shortName_eq, h.signature, h.declaringClass]

end Alike
end ProgramView

/-! ## The report -/

/-- A hit is reported in the same way where the views are alike and the root callers the same. -/
theorem ReportDocument.hitRecord_congr {a a' : Audit} (h : a.view.Alike a'.view)
    (hroots : ∀ id, a'.resolution.rootsFor id = a.resolution.rootsFor id) :
    hitRecord a' = hitRecord a := by
  have htext : methodText a'.view = methodText a.view := funext h.methodText
  funext hit
  unfold hitRecord
  rw [htext, h.shortName, h.declaringClass, hroots]

/-- Programs whose views are alike have the same report. -/
theorem ProgramView.Alike.report {p p' : Program} (h : p.view.Alike p'.view)
    (keywords : KeywordList) (policy : Policy) :
    ReportDocument.ofAudit (p'.audit keywords policy).1 =
      ReportDocument.ofAudit (p.audit keywords policy).1 := by
  have hroots : ∀ id, (p'.audit keywords policy).1.resolution.rootsFor id =
      (p.audit keywords policy).1.resolution.rootsFor id := by
    intro id
    unfold Program.audit
    dsimp only
    rw [h.hits]
    exact h.rootsFor p.callersFinite p'.callersFinite _ id
  have hclasses : (p'.audit keywords policy).1.resolution.classes =
      (p.audit keywords policy).1.resolution.classes := by
    unfold Program.audit
    dsimp only
    rw [h.hits]
    exact h.classes p.callersFinite p'.callersFinite _
  have hhit : ReportDocument.hitRecord (p'.audit keywords policy).1 =
      ReportDocument.hitRecord (p.audit keywords policy).1 :=
    ReportDocument.hitRecord_congr h hroots
  unfold ReportDocument.ofAudit
  rw [hhit, hclasses]
  unfold Program.audit
  dsimp only
  rw [h.hits, h.keywordsHit, h.packageKeywords, h.containerStatements]

namespace Model

/-! ## Models that say the same -/

/-- The package of a class entry: the one that is given, or else the one that its name says. -/
def packageOfEntry (e : ClassEntry) : String := e.package.getD (packageOf e.name)

/-- Class entries of the same name say the same package. -/
def PackagesAgree (entries : List ClassEntry) : Prop :=
  ∀ e ∈ entries, ∀ e' ∈ entries, e.name = e'.name → packageOfEntry e = packageOfEntry e'

instance (entries : List ClassEntry) : Decidable (PackagesAgree entries) :=
  inferInstanceAs (Decidable (∀ e ∈ entries, ∀ e' ∈ entries, _ → _))

/-- Where class entries of the same name say the same package, any of them says the class of that
name. -/
theorem classDecl_of_mem {m : Model} (hagree : PackagesAgree m.classes) {e : ClassEntry}
    (he : e ∈ m.classes) : m.classDecl e.name = ⟨e.name, packageOfEntry e⟩ := by
  unfold classDecl
  cases hfind : m.classes.find? fun first => first.name = e.name with
  | none =>
    rw [List.find?_eq_none] at hfind
    exact absurd (decide_eq_true rfl) (hfind e he)
  | some first =>
    have hname : first.name = e.name := by simpa using List.find?_some hfind
    have hfirst : first ∈ m.classes := List.mem_of_find?_eq_some hfind
    have hpackage : packageOfEntry first = packageOfEntry e := hagree first hfirst e he hname
    show ClassDecl.mk first.name (packageOfEntry first) = ⟨e.name, packageOfEntry e⟩
    rw [hname, hpackage]

theorem classDecl_of_undeclared {m : Model} {name : String} (h : ∀ e ∈ m.classes, e.name ≠ name) :
    m.classDecl name = .ofName name := by
  have hnone : (m.classes.find? fun e => e.name = name) = none := by
    rw [List.find?_eq_none]
    intro e he hname
    exact h e he (of_decide_eq_true hname)
  rw [classDecl, hnone]
  rfl

/-- Where class entries of the same name say the same package, their order does not decide which
class a name stands for. -/
theorem classDecl_of_perm {m m' : Model} (hperm : m'.classes.Perm m.classes)
    (hagree : PackagesAgree m.classes) (name : String) : m'.classDecl name = m.classDecl name := by
  have hmem : ∀ e, e ∈ m'.classes ↔ e ∈ m.classes := fun _ => hperm.mem_iff
  by_cases hdeclared : ∃ e ∈ m.classes, e.name = name
  · obtain ⟨e, he, rfl⟩ := hdeclared
    have hagree' : PackagesAgree m'.classes := by
      intro d hd d' hd'
      exact hagree d ((hmem d).1 hd) d' ((hmem d').1 hd')
    rw [classDecl_of_mem hagree he, classDecl_of_mem hagree' ((hmem e).2 he)]
  · have hnone : ∀ e ∈ m.classes, e.name ≠ name := fun e he hname => hdeclared ⟨e, he, hname⟩
    rw [classDecl_of_undeclared hnone, classDecl_of_undeclared fun e he => hnone e ((hmem e).1 he)]

/-- Calls count wherever they are listed, and however often. -/
theorem calls_of_mem_iff {c : Classification} {m m' : Model} (hmethods : m'.methods = m.methods)
    (hcalls : ∀ call, call ∈ m'.calls ↔ call ∈ m.calls) : m'.Calls c = m.Calls c := by
  funext caller callee
  refine propext ?_
  unfold Calls
  simp only [hmethods, hcalls]

/-- The callers in the program of a model stand in increasing order. -/
theorem increasing_callers_of_build {c : Classification} {m : Model} {p : Program}
    (h : (m.build c).1 = .ok p) (id : MethodId) : (p.view.callers id).Pairwise (· < ·) := by
  rw [eq_session_of_build h]
  exact CallGraph.increasing_callers _ (Builder.session (m.steps c)).keptCalls id

namespace Describes

variable {c : Classification} {m : Model} {p : Program} (h : m.Describes c p)

include h

/-- The outline of a method is that of its entry. -/
theorem outline?_eq (id : MethodId) :
    p.view.outline? id = (m.methods[id]?).map (m.outline c) := by
  rw [← List.getElem?_map, ← h.outlines, List.getElem?_map, Array.getElem?_toList]
  rfl

theorem methodCount_eq : p.methodCount = m.methods.length := by
  have hlength := congrArg List.length h.outlines
  rw [List.length_map, List.length_map, Array.length_toList] at hlength
  exact hlength

end Describes

section SameModel

variable {c : Classification} {m m' : Model} {p p' : Program}

/-- Models with the same methods, the same classes of names and the same calls have programs that
are alike. -/
theorem alike_of_build (hok : (m.build c).1 = .ok p) (hok' : (m'.build c).1 = .ok p')
    (hmethods : m'.methods = m.methods) (hclasses : ∀ name, m'.classDecl name = m.classDecl name)
    (hcalls : ∀ call, call ∈ m'.calls ↔ call ∈ m.calls) : p.view.Alike p'.view := by
  have h := describes_of_build hok
  have h' := describes_of_build hok'
  have houtline : m'.outline c = m.outline c := by
    funext e
    unfold outline
    rw [hclasses]
  have hcount : p'.methodCount = p.methodCount := by
    rw [h.methodCount_eq, h'.methodCount_eq, hmethods]
  have houtlines : ∀ id, p'.view.outline? id = p.view.outline? id := by
    intro id
    rw [h.outline?_eq, h'.outline?_eq, hmethods, houtline]
  refine ⟨congrArg List.range hcount, houtlines, ?_, hcount, funext fun id => ?_,
    funext fun id => ?_⟩
  · -- callers are listed in increasing order, so it is enough that they are the same
    funext id
    refine (increasing_callers_of_build hok' id).eq_of_mem_iff (increasing_callers_of_build hok id)
      fun x => ?_
    have hiff := h.callers x id
    rw [← hmethods, ← calls_of_mem_iff hmethods hcalls] at hiff
    exact (h'.callers x id).trans hiff.symm
  · rw [p'.standard_view.statements_eq, p.standard_view.statements_eq, houtlines]
  · rw [p'.standard_view.declaringClass_eq, p.standard_view.declaringClass_eq, houtlines]

/-- Such a model is built if the other one is, and the reports are the same. -/
theorem report_of_same (hok : (m.build c).1 = .ok p) (m' : Model)
    (hmethods : m'.methods = m.methods) (hclasses : ∀ name, m'.classDecl name = m.classDecl name)
    (hcalls : ∀ call, call ∈ m'.calls ↔ call ∈ m.calls) (keywords : KeywordList)
    (policy : Policy) :
    ∃ p', (m'.build c).1 = .ok p' ∧
      ReportDocument.ofAudit (p'.audit keywords policy).1 =
        ReportDocument.ofAudit (p.audit keywords policy).1 := by
  have hdistinct : (m'.methods.map MethodEntry.signature).Nodup := by
    rw [hmethods]
    exact nodup_of_build hok
  obtain ⟨p', hok', -⟩ := m'.exists_program c hdistinct
  exact ⟨p', hok', (alike_of_build hok hok' hmethods hclasses hcalls).report keywords policy⟩

end SameModel

/-- **The order of classes and calls does not show in a report.**  If a model is built, then so is
every model with the same calls in any order and with any repetition, and its report is the same
in every field.  Where class entries of the same name say the same package, this holds for every
order of the classes as well. -/
theorem report_order_independent (c : Classification) (m : Model) (keywords : KeywordList)
    (policy : Policy) (p : Program) (hok : (m.build c).1 = .ok p) :
    (∀ calls' : List CallEntry, (∀ call, call ∈ calls' ↔ call ∈ m.calls) →
      ∃ p', (({ m with calls := calls' } : Model).build c).1 = .ok p' ∧
        ReportDocument.ofAudit (p'.audit keywords policy).1 =
          ReportDocument.ofAudit (p.audit keywords policy).1) ∧
    (∀ (classes' : List ClassEntry) (calls' : List CallEntry), classes'.Perm m.classes →
      PackagesAgree m.classes →
      (∀ call, call ∈ calls' ↔ call ∈ m.calls) →
      ∃ p', (({ m with classes := classes', calls := calls' } : Model).build c).1 = .ok p' ∧
        ReportDocument.ofAudit (p'.audit keywords policy).1 =
          ReportDocument.ofAudit (p.audit keywords policy).1) := by
  constructor
  · intro calls' hcalls
    exact report_of_same hok { m with calls := calls' } rfl (fun _ => rfl) hcalls keywords policy
  · intro classes' calls' hperm hagree hcalls
    exact report_of_same hok { m with classes := classes', calls := calls' } rfl
      (classDecl_of_perm hperm hagree) hcalls keywords policy

/-- The platform model with its classes declared, one of them twice. -/
def declaredModel : Model :=
  { platformModel with classes := [⟨"a.Main", some "a"⟩, ⟨"b.Net", some "net"⟩, ⟨"a.Main", none⟩] }

/-- Its report stays the same once the classes stand in reverse and all calls are listed twice, the
second time in reverse. -/
theorem report_declaredModel_reverse :
    PackagesAgree declaredModel.classes ∧
    ∃ p p', (declaredModel.build {}).1 = .ok p ∧
      (({ declaredModel with
          classes := declaredModel.classes.reverse
          calls := declaredModel.calls ++ declaredModel.calls.reverse } : Model).build {}).1 =
        .ok p' ∧
      ReportDocument.ofAudit (p'.audit (.ofList ["key"]) { interestedApiOnly := false }).1 =
        ReportDocument.ofAudit (p.audit (.ofList ["key"]) { interestedApiOnly := false }).1 := by
  have hagree : PackagesAgree declaredModel.classes := by decide
  obtain ⟨p, hok, -⟩ := declaredModel.exists_program {} (by decide)
  obtain ⟨-, hreordered⟩ := report_order_independent {} declaredModel (.ofList ["key"])
    { interestedApiOnly := false } p hok
  obtain ⟨p', hok', hreport⟩ := hreordered declaredModel.classes.reverse
    (declaredModel.calls ++ declaredModel.calls.reverse) (List.reverse_perm _) hagree (by simp)
  exact ⟨hagree, p, p', hok, hok', hreport⟩

end Model
end KeywordAudit
