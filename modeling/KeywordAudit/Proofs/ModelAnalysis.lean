import Mathlib.Logic.Relation
import KeywordAudit.Proofs.Inspection
import KeywordAudit.Proofs.ModelBuild
import KeywordAudit.Proofs.Resolution
import KeywordAudit.Proofs.RootSearch

/-!
# The analysis of a model

What building, inspecting and resolving a model comes to, told in terms of the model's entries
alone.  Numbers of methods are places in the model's list of methods, calls between numbers are
calls between the entries at these places, and a chain of calls between numbers is a chain of
calls between entries.
-/

namespace KeywordAudit.Model

/-! ## Hits and root callers in a model -/

/-- A statement is searched: always if the policy does not ask for interesting interfaces, and
else if it calls one, in a library if the policy asks for that too.  Flags that are absent are
those of the classification. -/
def Searched (c : Classification) (policy : Policy) (s : StatementEntry) : Prop :=
  policy.interestedApiOnly = true → ∃ i, s.invocation = some i ∧
    i.interesting.getD (c.isInteresting i.target) = true ∧
    (policy.apiInLibrariesOnly = true → i.library.getD (c.isLibrary i.target) = true)

/-- A method has a hit: a keyword stands in one of its statements that are searched. -/
def HasHit (c : Classification) (policy : Policy) (keywords : KeywordList) (e : MethodEntry) :
    Prop :=
  ∃ s ∈ e.body, Searched c policy s ∧
    ∃ k ∈ keywords.toList, ∃ before after, s.text = before ++ k ++ after

/-- A root caller of a method: it is the method or reaches it by a chain of calls, and nothing
calls it. -/
def IsRootOf (c : Classification) (m : Model) (root e : MethodEntry) : Prop :=
  Relation.ReflTransGen (m.Calls c) root e ∧ ∀ caller, ¬ m.Calls c caller root

/-- A statement of the program is searched exactly if its entry is. -/
theorem scopeOf_statement (c : Classification) (policy : Policy) (s : StatementEntry) :
    (∃ scope, policy.scopeOf (statement c s) = some scope) ↔ Searched c policy s := by
  unfold Searched Policy.scopeOf statement
  cases policy.interestedApiOnly with
  | false => exact ⟨fun _ h => absurd h (by decide), fun _ => ⟨_, rfl⟩⟩
  | true =>
    cases s.invocation with
    | none => simp
    | some i =>
      cases hint : i.interesting.getD (c.isInteresting i.target) <;>
        cases hlib : i.library.getD (c.isLibrary i.target) <;>
        cases policy.apiInLibrariesOnly <;>
        simp [Classification.invocation, hint, hlib]

/-! ## Places -/

/-- Entries with the same signature stand at the same place. -/
theorem place_unique {m : Model} (hdistinct : (m.methods.map MethodEntry.signature).Nodup)
    {i j : Nat} {e e' : MethodEntry} (hi : m.methods[i]? = some e) (hj : m.methods[j]? = some e')
    (hsignature : e.signature = e'.signature) : i = j := by
  have hlt : i < (m.methods.map MethodEntry.signature).length := by
    rw [List.length_map]
    exact (List.getElem?_eq_some_iff.1 hi).1
  refine (List.getElem?_inj hlt hdistinct).1 ?_
  rw [List.getElem?_map, List.getElem?_map, hi, hj, Option.map_some, Option.map_some, hsignature]

namespace Describes

variable {c : Classification} {m : Model} {p : Program} (h : m.Describes c p)

include h

/-- The method at the place of an entry. -/
theorem method_of_entry {id : MethodId} {e : MethodEntry} (he : m.methods[id]? = some e) :
    ∃ method, p.view.method id = some method ∧ method.signature = e.signature ∧
      method.body = e.body.map (statement c) ∧
      p.view.declaringClass id = some (m.classDecl e.className) := by
  obtain ⟨method, hmethod, heq⟩ := getElem?_of_map_eq h.outlines.symm he
  rw [Array.getElem?_toList] at hmethod
  refine ⟨method, hmethod, (congrArg Outline.signature heq).symm,
    (congrArg Outline.body heq).symm, ?_⟩
  show (p.methods[id]?).bind _ = _
  rw [hmethod, Option.bind_some]
  exact (congrArg Outline.owner heq).symm

/-- The entry at the place of a method. -/
theorem entry_of_method {id : MethodId} {method : Method}
    (hmethod : p.view.method id = some method) : ∃ e, m.methods[id]? = some e := by
  have hmethod : p.methods.toList[id]? = some method := by
    rw [Array.getElem?_toList]
    exact hmethod
  obtain ⟨e, he, -⟩ := getElem?_of_map_eq h.outlines hmethod
  exact ⟨e, he⟩

/-- A method with an entry is in scope. -/
theorem mem_methods_of_entry {id : MethodId} {e : MethodEntry} (he : m.methods[id]? = some e) :
    id ∈ p.view.methods := by
  obtain ⟨method, hmethod, -⟩ := h.method_of_entry he
  refine List.mem_range.2 ?_
  exact (Array.getElem?_eq_some_iff.1 hmethod).1

/-- The entry of the method of a hit. -/
theorem entry_of_hit {keywords : KeywordList} {policy : Policy} {hit : Hit}
    (hhit : hit ∈ (Inspection.run p.view keywords policy).1.hits) :
    ∃ e, m.methods[hit.method]? = some e := by
  rw [Inspection.run, Inspection.hits_runWith] at hhit
  obtain ⟨-, method, hmethod, -⟩ := Inspection.mem_expectedHits.1 hhit
  exact h.entry_of_method hmethod

/-! ## Chains of calls -/

/-- A chain of calls to the place of an entry is a chain of calls between entries. -/
theorem callChain_iff (hdistinct : (m.methods.map MethodEntry.signature).Nodup) {id r : MethodId}
    {e : MethodEntry} (he : m.methods[id]? = some e) :
    CallChain p.view.callers id r ↔
      ∃ root, m.methods[r]? = some root ∧ Relation.ReflTransGen (m.Calls c) root e := by
  constructor
  · intro hchain
    -- a chain grows at the caller's end, and so does the chain of entries
    induction hchain with
    | here => exact ⟨e, he, .refl⟩
    | @call x y _ hy ih =>
      obtain ⟨callee, hcallee, hreach⟩ := ih
      obtain ⟨caller, callee', hcaller, hcallee', hcall⟩ := (h.callers y x).1 hy
      rw [hcallee, Option.some.injEq] at hcallee'
      rw [← hcallee'] at hcall
      exact ⟨caller, hcaller, .head hcall hreach⟩
  · rintro ⟨root, hroot, hreach⟩
    induction hreach using Relation.ReflTransGen.head_induction_on generalizing r with
    | refl =>
      -- an entry stands in one place, so this is the goal itself
      rw [place_unique hdistinct hroot he rfl]
      exact .here
    | @head root next hcall _ ih =>
      obtain ⟨x, hx⟩ := List.mem_iff_getElem?.1 hcall.2.1
      exact .call (ih hx) ((h.callers r x).2 ⟨root, next, hroot, hx, hcall⟩)

/-- The root callers of a method are at the places of the root callers of its entry. -/
theorem mem_rootCallers_iff (hdistinct : (m.methods.map MethodEntry.signature).Nodup)
    {id r : MethodId} {e : MethodEntry} (he : m.methods[id]? = some e) :
    r ∈ p.view.rootCallers id (p.callersFinite id) ↔
      ∃ root, m.methods[r]? = some root ∧ m.IsRootOf c root e := by
  rw [ProgramView.mem_rootCallers, h.callChain_iff hdistinct he]
  constructor
  · rintro ⟨hnone, root, hroot, hreach⟩
    refine ⟨root, hroot, hreach, fun caller hcall => ?_⟩
    obtain ⟨x, hx⟩ := List.mem_iff_getElem?.1 hcall.1
    have hmem : x ∈ p.view.callers r := (h.callers x r).2 ⟨caller, root, hx, hroot, hcall⟩
    rw [hnone] at hmem
    exact absurd hmem List.not_mem_nil
  · rintro ⟨root, hroot, hreach, hnone⟩
    refine ⟨List.eq_nil_iff_forall_not_mem.2 fun x hx => ?_, root, hroot, hreach⟩
    obtain ⟨caller, root', -, hroot', hcall⟩ := (h.callers x r).1 hx
    rw [hroot, Option.some.injEq] at hroot'
    rw [← hroot'] at hcall
    exact hnone caller hcall

/-! ## Hits -/

/-- A method has a hit in the inspection exactly if its entry has one. -/
theorem exists_hit_iff {keywords : KeywordList} {policy : Policy} {id : MethodId}
    {e : MethodEntry} (he : m.methods[id]? = some e) :
    id ∈ (Inspection.run p.view keywords policy).1.hits.map Hit.method ↔
      HasHit c policy keywords e := by
  obtain ⟨method, hmethod, -, hbody, -⟩ := h.method_of_entry he
  have hstatements : p.view.statements id = e.body.map (statement c) := by
    rw [p.standard_view.statements_of_method hmethod, hbody]
  rw [Inspection.run, Inspection.hits_runWith, List.mem_map]
  constructor
  · rintro ⟨hit, hhit, rfl⟩
    obtain ⟨-, -, -, hhit⟩ := Inspection.mem_expectedHits.1 hhit
    obtain ⟨-, s, hs, -, hscope, hk, hfound⟩ := Inspection.mem_expectedInBody.1 hhit
    rw [hstatements, List.getElem?_map, Option.map_eq_some_iff] at hs
    obtain ⟨entry, hentry, rfl⟩ := hs
    exact ⟨entry, List.mem_of_getElem? hentry, (scopeOf_statement c policy entry).1 ⟨_, hscope⟩,
      hit.keyword, hk, (Matcher.substring_iff.1 hfound).2⟩
  · rintro ⟨entry, hentry, hsearched, k, hk, hfound⟩
    obtain ⟨scope, hscope⟩ := (scopeOf_statement c policy entry).2 hsearched
    obtain ⟨index, hindex⟩ := List.mem_iff_getElem?.1 hentry
    refine ⟨⟨id, index, entry.text, k, scope⟩, Inspection.mem_expectedHits.2
      ⟨h.mem_methods_of_entry he, method, hmethod, Inspection.mem_expectedInBody.2
        ⟨rfl, statement c entry, ?_, rfl, hscope, hk, ?_⟩⟩, rfl⟩
    · rw [hstatements, List.getElem?_map, hindex, Option.map_some]
    · exact Matcher.substring_iff.2 ⟨(keywords.trimmed k hk).1, hfound⟩

end Describes

/-! ## Root caller classes -/

/-- The classes that a resolution collects are those of the root callers of the entries with
hits. -/
theorem Describes.mem_classes_iff {c : Classification} {m : Model} {p : Program}
    (h : m.Describes c p) (hdistinct : (m.methods.map MethodEntry.signature).Nodup)
    (keywords : KeywordList) (policy : Policy) (name : String) :
    name ∈ (Resolution.run p.view p.callersFinite
      (Inspection.run p.view keywords policy).1.hits).1.classes ↔
      ∃ e ∈ m.methods, HasHit c policy keywords e ∧
        ∃ root ∈ m.methods, root.className = name ∧ m.IsRootOf c root e := by
  rw [Resolution.mem_classes_run]
  constructor
  · rintro ⟨hit, hhit, r, hr, decl, hdecl, rfl⟩
    have hmem : hit.method ∈ (Inspection.run p.view keywords policy).1.hits.map Hit.method :=
      List.mem_map.2 ⟨hit, hhit, rfl⟩
    obtain ⟨e, he⟩ := h.entry_of_hit hhit
    obtain ⟨root, hroot, hisRoot⟩ := (h.mem_rootCallers_iff hdistinct he).1 hr
    obtain ⟨-, -, -, -, hdecl'⟩ := h.method_of_entry hroot
    refine ⟨e, List.mem_of_getElem? he, (h.exists_hit_iff he).1 hmem, root,
      List.mem_of_getElem? hroot, ?_, hisRoot⟩
    rw [hdecl, Option.some.injEq] at hdecl'
    rw [hdecl', name_classDecl]
  · rintro ⟨e, he, hhas, root, hroot, rfl, hisRoot⟩
    obtain ⟨id, hid⟩ := List.mem_iff_getElem?.1 he
    obtain ⟨r, hr⟩ := List.mem_iff_getElem?.1 hroot
    obtain ⟨hit, hhit, rfl⟩ := List.mem_map.1 ((h.exists_hit_iff hid).2 hhas)
    obtain ⟨-, -, -, -, hdecl⟩ := h.method_of_entry hr
    exact ⟨hit, hhit, r, (h.mem_rootCallers_iff hdistinct hid).2 ⟨root, hr, hisRoot⟩, _, hdecl,
      name_classDecl m root.className⟩

/-- **The root caller classes of a model.**  A class is reported exactly if it declares a method
that nothing calls and from which a chain of calls, possibly of length zero, leads to a method with
a hit.  Calls count where both signatures are those of methods and the caller's class fits no
synthetic entry class. -/
theorem rootClasses_exact (c : Classification) (m : Model) (keywords : KeywordList)
    (policy : Policy) (hdistinct : (m.methods.map MethodEntry.signature).Nodup) :
    ∃ p, (m.build c).1 = .ok p ∧ ∀ name,
      name ∈ (Resolution.run p.view p.callersFinite
        (Inspection.run p.view keywords policy).1.hits).1.classes ↔
        ∃ e ∈ m.methods, HasHit c policy keywords e ∧
          ∃ root ∈ m.methods, root.className = name ∧
            Relation.ReflTransGen (m.Calls c) root e ∧ ∀ caller, ¬ m.Calls c caller root := by
  obtain ⟨p, hok, hp⟩ := m.exists_program c hdistinct
  exact ⟨p, hok, hp.mem_classes_iff hdistinct keywords policy⟩

/-- A platform method that calls the first of two application methods, which calls the second; the
second calls itself and holds the keyword.  One call comes from nowhere. -/
def platformModel : Model where
  methods := [⟨"<dummyMainClass: void main()>", "dummyMainClass", []⟩,
    ⟨"<a.Main: void run()>", "a.Main", []⟩,
    ⟨"<b.Net: void send()>", "b.Net", [⟨"the key", none⟩]⟩]
  calls := [⟨"<dummyMainClass: void main()>", "<a.Main: void run()>"⟩,
    ⟨"<a.Main: void run()>", "<b.Net: void send()>"⟩,
    ⟨"<b.Net: void send()>", "<b.Net: void send()>"⟩,
    ⟨"<c.Gone: void go()>", "<a.Main: void run()>"⟩]

/-- The root caller is the method that only the platform calls. -/
theorem rootClasses_platformModel :
    (platformModel.methods.map MethodEntry.signature).Nodup ∧
    ∃ p, (platformModel.build {}).1 = .ok p ∧
      "a.Main" ∈ (Resolution.run p.view p.callersFinite (Inspection.run p.view (.ofList ["key"])
        { interestedApiOnly := false }).1.hits).1.classes ∧
      "dummyMainClass" ∉ (Resolution.run p.view p.callersFinite (Inspection.run p.view
        (.ofList ["key"]) { interestedApiOnly := false }).1.hits).1.classes := by
  have hdistinct : (platformModel.methods.map MethodEntry.signature).Nodup := by decide
  obtain ⟨p, hok, hmem⟩ := rootClasses_exact {} platformModel (.ofList ["key"])
    { interestedApiOnly := false } hdistinct
  refine ⟨hdistinct, p, hok, (hmem _).2 ?_, fun hdummy => ?_⟩
  · refine ⟨⟨"<b.Net: void send()>", "b.Net", [⟨"the key", none⟩]⟩, by decide,
      ⟨⟨"the key", none⟩, by decide, fun h => absurd h (by decide), "key", by decide, "the ", "",
        by decide⟩,
      ⟨"<a.Main: void run()>", "a.Main", []⟩, by decide, rfl, .single (by decide), ?_⟩
    have hnone : ∀ caller ∈ platformModel.methods,
        ¬ platformModel.Calls {} caller ⟨"<a.Main: void run()>", "a.Main", []⟩ := by decide
    intro caller hcall
    exact hnone caller hcall.1 hcall
  · obtain ⟨e, he, ⟨s, hs, -⟩, root, hroot, hclass, hreach, -⟩ := (hmem _).1 hdummy
    rcases hreach.cases_head with rfl | ⟨next, hcall, -⟩
    · have hempty : ∀ e ∈ platformModel.methods, e.className = "dummyMainClass" → e.body = [] := by
        decide
      rw [hempty _ he hclass] at hs
      exact absurd hs List.not_mem_nil
    · have hfits := hcall.2.2.2 "dummyMainClass" (by decide)
      rw [hclass] at hfits
      exact absurd hfits (by decide)

end KeywordAudit.Model
