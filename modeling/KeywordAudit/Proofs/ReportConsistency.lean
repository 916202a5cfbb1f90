import Mathlib.Data.Finset.Card
import Mathlib.Data.List.Forall2
import KeywordAudit.Proofs.ModelProgram
import KeywordAudit.Proofs.SessionCalls
import KeywordAudit.Report.Document

/-!
# What a report says about itself

A report is put together from the hits, two sets of names and the root callers that the resolution
has remembered.  They were collected apart from each other, but in the report of a built program
they agree: a built program is closed, that is, no signature repeats, every method has a class and
every caller is a method.  So names in the report stand for methods one to one, no replacement for
an unknown method is ever written, and everything else can be read off the hits that are listed.
-/

namespace KeywordAudit

/-! ## Built programs -/

namespace Program

/-- A program is built by a session of a builder or from a model. -/
inductive Built : Program → Prop where
  | session (steps : List Builder.Step) : Built (Builder.session steps).build.1
  | model {c : Classification} {m : Model} {p : Program} : (m.build c).1 = .ok p → Built p

/-- A program is closed: it finds each method by its signature and no other, the class of each
method is known, and callers are methods. -/
structure Closed (p : Program) : Prop where
  findMethod : ∀ signature id, p.findMethod signature = some id ↔
    ∃ m, p.view.method id = some m ∧ m.signature = signature
  declaringClass : ∀ id m, p.view.method id = some m → ∃ c, p.view.declaringClass id = some c
  callers : ∀ x y, x ∈ p.view.callers y → ∃ m, p.view.method x = some m

/-- At the end of a session a program is closed. -/
theorem closed_session (steps : List Builder.Step) :
    (Builder.session steps).build.1.Closed := by
  have hb := Builder.consistent_session steps
  refine ⟨fun signature id => ?_, fun id m hm => ?_, fun x y hx => ?_⟩
  · rw [hb.findMethod_build]
    exact hb.methods signature id
  · obtain ⟨c, hc⟩ : ∃ c, (Builder.session steps).classes[m.owner]? = some c :=
      ⟨_, Array.getElem?_eq_getElem (hb.owners id m hm)⟩
    refine ⟨c, ?_⟩
    rw [(Program.standard_view _).declaringClass, hm, Option.bind_some]
    exact hc
  · exact ⟨_, Array.getElem?_eq_getElem (Builder.mem_callers_session.1 hx).caller_lt⟩

/-- Built programs are closed: building from a model is a session too. -/
theorem Built.closed {p : Program} (h : p.Built) : p.Closed := by
  cases h with
  | session steps => exact closed_session steps
  | model hok =>
    rw [Model.eq_session_of_build hok]
    exact closed_session _

namespace Closed

variable {p : Program} (h : p.Closed)

include h

/-- A signature is that of one method. -/
theorem eq_of_signature {x y : MethodId} {m n : Method} (hm : p.view.method x = some m)
    (hn : p.view.method y = some n) (hsignature : m.signature = n.signature) : x = y := by
  have hx : p.findMethod n.signature = some x := (h.findMethod _ x).2 ⟨m, hm, hsignature⟩
  have hy : p.findMethod n.signature = some y := (h.findMethod _ y).2 ⟨n, hn, rfl⟩
  rw [hx, Option.some.injEq] at hy
  exact hy

/-- The root callers of a method are methods. -/
theorem method_of_root {start r : MethodId} {m : Method} (hm : p.view.method start = some m)
    (hr : r ∈ p.view.rootCallers start (p.callersFinite start)) :
    ∃ n, p.view.method r = some n := by
  obtain ⟨-, hchain⟩ := ProgramView.mem_rootCallers.1 hr
  cases hchain with
  | here => exact ⟨m, hm⟩
  | call _ hc => exact h.callers r _ hc

end Closed
end Program

/-- Hits lie in methods. -/
theorem Inspection.method_of_hit {v : ProgramView} {keywords : KeywordList} {policy : Policy}
    {hit : Hit} (hhit : hit ∈ (run v keywords policy).1.hits) :
    ∃ m, v.method hit.method = some m := by
  rw [run, hits_runWith] at hhit
  obtain ⟨-, m, hm, -⟩ := mem_expectedHits.1 hhit
  exact ⟨m, hm⟩

/-! ## Counting -/

/-- A list without repetitions is as long as there are distinct values in any list of the same
members. -/
theorem length_eq_card {α : Type} [DecidableEq α] {l l' : List α} (hnodup : l.Nodup)
    (h : ∀ x, x ∈ l ↔ x ∈ l') : l.length = l'.toFinset.card := by
  have hfinset : l.toFinset = l'.toFinset := by
    ext x
    rw [List.mem_toFinset, List.mem_toFinset, h x]
  rw [← hfinset, List.toFinset_card_of_nodup hnodup]

/-- Names that tell values apart are as many as the values. -/
theorem card_map_of_injOn {α β : Type} [DecidableEq α] [DecidableEq β] {f : α → β} {l : List α}
    (h : ∀ x ∈ l, ∀ y ∈ l, f x = f y → x = y) : (l.map f).toFinset.card = l.toFinset.card := by
  have himage : (l.map f).toFinset = l.toFinset.image f := by
    ext b
    simp only [List.mem_toFinset, List.mem_map, Finset.mem_image]
  rw [himage]
  refine Finset.card_image_of_injOn fun x hx y hy => ?_
  exact h x (List.mem_toFinset.1 hx) y (List.mem_toFinset.1 hy)

theorem NameSet.nodup (s : NameSet) : s.toList.Nodup := by
  refine s.increasing.imp ?_
  rintro x _ hlt rfl
  exact Std.lt_irrefl hlt

/-! ## Names in a report -/

namespace ReportDocument

variable {p : Program}

theorem methodText_of_method {id : MethodId} {m : Method} (hm : p.view.method id = some m) :
    methodText p.view id = m.signature := by
  rw [methodText, ProgramView.signatureOr, hm, Option.map_some, Option.getD_some]

/-- A text names a method: it is the signature of the method, which is declared in a class. -/
def Names (p : Program) (id : MethodId) (text : String) : Prop :=
  ∃ m c, p.view.method id = some m ∧ p.view.declaringClass id = some c ∧ text = m.signature

theorem names_methodText (h : p.Closed) {id : MethodId} {m : Method}
    (hm : p.view.method id = some m) : Names p id (methodText p.view id) := by
  obtain ⟨c, hc⟩ := h.declaringClass id m hm
  exact ⟨m, c, hm, hc, methodText_of_method hm⟩

/-- A method is found by its name. -/
theorem Names.findMethod (h : p.Closed) {id : MethodId} {text : String} (hnames : Names p id text) :
    p.findMethod text = some id := by
  obtain ⟨m, -, hm, -, rfl⟩ := hnames
  exact (h.findMethod _ id).2 ⟨m, hm, rfl⟩

/-- What a listed hit says about a hit of the inspection. -/
structure Tells (p : Program) (hit : Hit) (record : HitRecord) : Prop where
  keyword : record.keyword = hit.keyword
  index : record.index = hit.index
  text : record.text = hit.text
  scope : record.scope = hit.scope.name
  method : Names p hit.method record.method
  className : ∃ c, p.view.declaringClass hit.method = some c ∧ record.className = some c.name
  /-- The root callers are named one by one, in the order of the search. -/
  rootCallers : List.Forall₂ (Names p) (p.view.rootCallers hit.method (p.callersFinite hit.method))
    record.rootCallers

/-- A report agrees with the hits it was made from, and its lists and figures with its own list of
hits. -/
structure SelfConsistent (p : Program) (hits : List Hit) (d : ReportDocument) : Prop where
  hits : List.Forall₂ (Tells p) hits d.hits
  sameRoots : ∀ r ∈ d.hits, ∀ r' ∈ d.hits, r.method = r'.method → r.rootCallers = r'.rootCallers
  keywords_increasing : d.keywordsHit.Pairwise (· < ·)
  mem_keywords : ∀ k, k ∈ d.keywordsHit ↔ k ∈ d.hits.map HitRecord.keyword
  classes_increasing : d.rootCallerClasses.Pairwise (· < ·)
  /-- The classes are those that declare the methods named as root callers. -/
  mem_classes : ∀ name, name ∈ d.rootCallerClasses ↔ ∃ r ∈ d.hits, ∃ text ∈ r.rootCallers,
    ∃ id c, p.findMethod text = some id ∧ p.view.declaringClass id = some c ∧ c.name = name
  totalHits : d.summary.totalHits = d.hits.length
  distinctKeywords : d.summary.distinctKeywords = (d.hits.map HitRecord.keyword).toFinset.card
  methodsWithHits : d.summary.methodsWithHits = (d.hits.map HitRecord.method).toFinset.card
  rootClassCount : d.summary.rootCallerClasses = d.rootCallerClasses.length

section

variable {keywords : KeywordList} {policy : Policy}

/-- The root callers of a listed hit are those that a search from its method finds: the resolution
has an entry for every method with a hit. -/
theorem rootCallers_hitRecord {hit : Hit}
    (hhit : hit ∈ (Inspection.run p.view keywords policy).1.hits) :
    (hitRecord (p.audit keywords policy).1 hit).rootCallers =
      (p.view.rootCallers hit.method (p.callersFinite hit.method)).map (methodText p.view) :=
  congrArg (List.map (methodText p.view)) (Resolution.rootsFor_run (List.mem_map_of_mem hhit))

/-- Methods with hits have names of their own. -/
theorem eq_of_methodText (h : p.Closed) {hit hit' : Hit}
    (hhit : hit ∈ (Inspection.run p.view keywords policy).1.hits)
    (hhit' : hit' ∈ (Inspection.run p.view keywords policy).1.hits)
    (htext : methodText p.view hit.method = methodText p.view hit'.method) :
    hit.method = hit'.method := by
  obtain ⟨m, hm⟩ := Inspection.method_of_hit hhit
  obtain ⟨n, hn⟩ := Inspection.method_of_hit hhit'
  rw [methodText_of_method hm, methodText_of_method hn] at htext
  exact h.eq_of_signature hm hn htext

/-- The root callers of a method with a hit are named. -/
theorem names_root (h : p.Closed) {hit : Hit} {root : MethodId}
    (hhit : hit ∈ (Inspection.run p.view keywords policy).1.hits)
    (hroot : root ∈ p.view.rootCallers hit.method (p.callersFinite hit.method)) :
    Names p root (methodText p.view root) := by
  obtain ⟨m, hm⟩ := Inspection.method_of_hit hhit
  obtain ⟨n, hn⟩ := h.method_of_root hm hroot
  exact names_methodText h hn

theorem tells_hitRecord (h : p.Closed) {hit : Hit}
    (hhit : hit ∈ (Inspection.run p.view keywords policy).1.hits) :
    Tells p hit (hitRecord (p.audit keywords policy).1 hit) := by
  obtain ⟨m, hm⟩ := Inspection.method_of_hit hhit
  obtain ⟨c, hc⟩ := h.declaringClass hit.method m hm
  refine ⟨rfl, rfl, rfl, rfl, names_methodText h hm, ⟨c, hc, ?_⟩, ?_⟩
  · exact congrArg (Option.map ClassDecl.name) hc
  · rw [rootCallers_hitRecord hhit, List.forall₂_map_right_iff, List.forall₂_same]
    intro root hroot
    exact names_root h hhit hroot

theorem mem_keywordsHit_ofAudit (k : String) :
    k ∈ (ofAudit (p.audit keywords policy).1).keywordsHit ↔
      k ∈ (ofAudit (p.audit keywords policy).1).hits.map HitRecord.keyword := by
  have hmem : k ∈ (ofAudit (p.audit keywords policy).1).keywordsHit ↔
      ∃ hit ∈ (Inspection.run p.view keywords policy).1.hits, hit.keyword = k :=
    Inspection.mem_keywordsHit
  rw [hmem, ofAudit, List.map_map, List.mem_map]
  rfl

/-- The classes listed are those of the methods that the listed hits name as root callers. -/
theorem mem_rootCallerClasses_ofAudit (h : p.Closed) (name : String) :
    name ∈ (ofAudit (p.audit keywords policy).1).rootCallerClasses ↔
      ∃ r ∈ (ofAudit (p.audit keywords policy).1).hits, ∃ text ∈ r.rootCallers,
        ∃ id c, p.findMethod text = some id ∧ p.view.declaringClass id = some c ∧
          c.name = name := by
  have hmem : name ∈ (ofAudit (p.audit keywords policy).1).rootCallerClasses ↔
      ∃ hit ∈ (Inspection.run p.view keywords policy).1.hits,
        ∃ root ∈ p.view.rootCallers hit.method (p.callersFinite hit.method),
          ∃ c, p.view.declaringClass root = some c ∧ c.name = name :=
    Resolution.mem_classes_run
  rw [hmem]
  constructor
  · rintro ⟨hit, hhit, root, hroot, c, hc, hname⟩
    refine ⟨_, List.mem_map_of_mem hhit, methodText p.view root, ?_, root, c,
      (names_root h hhit hroot).findMethod h, hc, hname⟩
    rw [rootCallers_hitRecord hhit]
    exact List.mem_map_of_mem hroot
  · rintro ⟨r, hr, text, htext, id, c, hid, hc, hname⟩
    obtain ⟨hit, hhit, rfl⟩ := List.mem_map.1 hr
    rw [rootCallers_hitRecord hhit] at htext
    obtain ⟨root, hroot, rfl⟩ := List.mem_map.1 htext
    -- the method found by the name of a root caller is that root caller
    rw [(names_root h hhit hroot).findMethod h, Option.some.injEq] at hid
    rw [← hid] at hc
    exact ⟨hit, hhit, root, hroot, c, hc, hname⟩

/-- As many methods have hits as names of methods stand in the list of hits. -/
theorem methodsWithHits_ofAudit (h : p.Closed) :
    (ofAudit (p.audit keywords policy).1).summary.methodsWithHits =
      ((ofAudit (p.audit keywords policy).1).hits.map HitRecord.method).toFinset.card := by
  let ids := (Inspection.run p.view keywords policy).1.hits.map Hit.method
  have hnames : (ofAudit (p.audit keywords policy).1).hits.map HitRecord.method =
      ids.map (methodText p.view) := by
    rw [ofAudit, List.map_map, List.map_map]
    rfl
  have hapart : ∀ x ∈ ids, ∀ y ∈ ids, methodText p.view x = methodText p.view y → x = y := by
    intro x hx y hy htext
    obtain ⟨hit, hhit, rfl⟩ := List.mem_map.1 hx
    obtain ⟨hit', hhit', rfl⟩ := List.mem_map.1 hy
    exact eq_of_methodText h hhit hhit' htext
  rw [hnames, card_map_of_injOn hapart]
  exact length_eq_card (nodup_distinct ids) fun _ => mem_distinct

end

/-- **The report of a built program agrees with itself.**  It lists the hits of the inspection one
by one, with methods and root callers under their signatures; equal methods have equal root
callers; and its keywords, its classes and its figures are those of the hits it lists. -/
theorem report_selfConsistent (p : Program) (hbuilt : p.Built) (keywords : KeywordList)
    (policy : Policy) :
    (ofAudit (p.audit keywords policy).1).SelfConsistent p
      (Inspection.run p.view keywords policy).1.hits where
  hits := by
    rw [ofAudit, List.forall₂_map_right_iff]
    exact List.forall₂_same.2 fun hit hhit => tells_hitRecord hbuilt.closed hhit
  sameRoots := by
    intro r hr r' hr' hmethod
    obtain ⟨hit, hhit, rfl⟩ := List.mem_map.1 hr
    obtain ⟨hit', hhit', rfl⟩ := List.mem_map.1 hr'
    rw [rootCallers_hitRecord hhit, rootCallers_hitRecord hhit',
      eq_of_methodText hbuilt.closed hhit hhit' hmethod]
  keywords_increasing := NameSet.increasing _
  mem_keywords := mem_keywordsHit_ofAudit
  classes_increasing := NameSet.increasing _
  mem_classes := mem_rootCallerClasses_ofAudit hbuilt.closed
  totalHits := (List.length_map _).symm
  distinctKeywords := length_eq_card (NameSet.nodup _) mem_keywordsHit_ofAudit
  methodsWithHits := methodsWithHits_ofAudit hbuilt.closed
  rootClassCount := rfl

/-- A method that holds the keyword twice, called by one that does not. -/
def repeatedSession : List Builder.Step :=
  [.addMethod "<a.Main: void run()>" "a.Main" [],
    .addMethod "<b.Net: void send()>" "b.Net" [⟨"the key", none⟩, ⟨"no match", none⟩,
      ⟨"a key again", none⟩],
    .addCall 0 1]

/-- Both hits are listed under one signature, and one method is counted. -/
theorem report_selfConsistent_repeated :
    let p := (Builder.session repeatedSession).build.1
    let hits := (Inspection.run p.view (.ofList ["key"]) { interestedApiOnly := false }).1.hits
    let d := ofAudit (p.audit (.ofList ["key"]) { interestedApiOnly := false }).1
    p.Built ∧ d.SelfConsistent p hits ∧
    hits = [⟨1, 0, "the key", "key", .anyStatement⟩, ⟨1, 2, "a key again", "key", .anyStatement⟩] ∧
    d.hits.map HitRecord.method = ["<b.Net: void send()>", "<b.Net: void send()>"] ∧
    d.summary.totalHits = 2 ∧ d.summary.methodsWithHits = 1 := by
  intro p hits d
  have hbuilt : p.Built := .session repeatedSession
  have hd : d.SelfConsistent p hits :=
    report_selfConsistent p hbuilt (.ofList ["key"]) { interestedApiOnly := false }
  have hmethods : (Builder.session repeatedSession).methods =
      #[⟨"<a.Main: void run()>", 0, []⟩, ⟨"<b.Net: void send()>", 1, [⟨"the key", none⟩,
        ⟨"no match", none⟩, ⟨"a key again", none⟩]⟩] := by
    simp [repeatedSession, Builder.session, Builder.runSteps, Builder.step, Builder.addMethod,
      Builder.addCall, Builder.classNamed, Builder.addClass, Builder.empty, ClassDecl.ofName]
  have hhits : hits = [⟨1, 0, "the key", "key", .anyStatement⟩,
      ⟨1, 2, "a key again", "key", .anyStatement⟩] := by
    show (Inspection.runWith p.view _ _ .substring).1.hits = _
    rw [Inspection.hits_runWith]
    let methods := (Builder.session repeatedSession).methods
    show (List.range methods.size).flatMap (fun id => Inspection.expectedInBody _ _ _ id
      (methods[id]?.toList.flatMap fun _ => (methods[id]?.map Method.body).getD [])) = _
    rw [show methods = _ from hmethods]
    decide
  have hnames : d.hits.map HitRecord.method =
      ["<b.Net: void send()>", "<b.Net: void send()>"] := by
    show (hits.map _).map HitRecord.method = _
    rw [hhits]
    show [methodText p.view 1, methodText p.view 1] = _
    have hsend : p.view.method 1 = some ⟨"<b.Net: void send()>", 1, [⟨"the key", none⟩,
        ⟨"no match", none⟩, ⟨"a key again", none⟩]⟩ := congrArg (·[1]?) hmethods
    rw [methodText_of_method hsend]
  refine ⟨hbuilt, hd, hhits, hnames, ?_, ?_⟩
  · rw [hd.totalHits, ← hd.hits.length_eq, hhits]
    rfl
  · rw [hd.methodsWithHits, hnames]
    decide

end ReportDocument
end KeywordAudit
