import Mathlib.Tactic.Tauto
import KeywordAudit.Proofs.Inspection

/-!
# Keywords in packages

The package of a class is looked at for the first method of the class only, also if the class turns
out to be unknown, and in between the statements are searched.  None of this shows in the result:
the package keywords are those that are found if the package is looked at anew for every method in
scope.  So they depend on nothing but the methods in scope, as a set, and the packages of their
classes.
-/

namespace KeywordAudit

/-- The package of the class that owns a method; none if the method or its class is not known. -/
def ProgramView.package? (v : ProgramView) (id : MethodId) : Option String :=
  (v.method id).bind fun m => (v.classDecl m.owner).map ClassDecl.package

namespace Inspection

/-- The keywords in the package of a method's class, looked up for this method alone. -/
def packageWords (view : ProgramView) (keywords : KeywordList) (found : Matcher) (id : MethodId) :
    List String :=
  (view.package? id).toList.flatMap fun package => keywords.toList.filter (found package ·)

variable {view : ProgramView} {keywords : KeywordList} {policy : Policy} {found : Matcher}

theorem mem_packageWords {id : MethodId} {k : String} :
    k ∈ packageWords view keywords found id ↔ k ∈ keywords.toList ∧
      ∃ m c, view.method id = some m ∧ view.classDecl m.owner = some c ∧
        found c.package k = true := by
  simp only [packageWords, List.mem_flatMap, Option.mem_toList, List.mem_filter,
    ProgramView.package?, Option.map_eq_some_iff, Option.bind_eq_some_iff]
  constructor
  · rintro ⟨_, ⟨m, hm, c, hc, rfl⟩, hk, hfound⟩
    exact ⟨hk, m, c, hm, hc, hfound⟩
  · rintro ⟨hk, m, c, hm, hc, hfound⟩
    exact ⟨c.package, ⟨m, hm, c, hc, rfl⟩, hk, hfound⟩

/-- Looking at each class once finds what looking at it for every method finds. -/
theorem packageKeywords_eq :
    (runWith view keywords policy found).1.packageKeywords =
      .ofList (view.methods.flatMap (packageWords view keywords found)) := by
  refine NameSet.ext fun k => ?_
  rw [mem_packageKeywords, NameSet.mem_ofList, List.mem_flatMap]
  simp only [mem_packageWords]
  constructor
  · rintro ⟨hk, id, hid, hfound⟩
    exact ⟨id, hid, hk, hfound⟩
  · rintro ⟨id, hid, hk, hfound⟩
    exact ⟨hk, id, hid, hfound⟩

/-- The package keywords depend on the methods in scope, as a set, and on the packages of their
classes. -/
theorem packageKeywords_congr {v v' : ProgramView}
    (hmethods : ∀ id, id ∈ v'.methods ↔ id ∈ v.methods)
    (hpackage : ∀ id ∈ v.methods, v'.package? id = v.package? id) (p p' : Policy) :
    (runWith v' keywords p' found).1.packageKeywords =
      (runWith v keywords p found).1.packageKeywords := by
  rw [packageKeywords_eq, packageKeywords_eq]
  refine NameSet.ext fun k => ?_
  rw [NameSet.mem_ofList, NameSet.mem_ofList, List.mem_flatMap, List.mem_flatMap]
  simp only [hmethods]
  refine exists_congr fun id => and_congr_right fun hid => ?_
  rw [packageWords, packageWords, hpackage id hid]

/-- **The keywords in packages.**  They are the keywords that are found in the package of a class
that owns a method in scope, where both are known, and they are collected as if every method in
scope were looked at on its own.  Other policies, other bodies, another order of the methods and
repetitions among them make no difference, as long as the same methods are in scope and their
classes have the same packages. -/
theorem inspection_packages_exact (view : ProgramView) (keywords : KeywordList) (policy : Policy)
    (found : Matcher) :
    (∀ k, k ∈ (runWith view keywords policy found).1.packageKeywords ↔
      k ∈ keywords.toList ∧ ∃ id ∈ view.methods, ∃ m c, view.method id = some m ∧
        view.classDecl m.owner = some c ∧ found c.package k = true) ∧
    (runWith view keywords policy found).1.packageKeywords =
      .ofList (view.methods.flatMap (packageWords view keywords found)) ∧
    ∀ (view' : ProgramView) (policy' : Policy),
      (∀ id, id ∈ view'.methods ↔ id ∈ view.methods) →
      (∀ id ∈ view.methods, view'.package? id = view.package? id) →
      (runWith view' keywords policy' found).1.packageKeywords =
        (runWith view keywords policy found).1.packageKeywords := by
  exact ⟨fun k => mem_packageKeywords, packageKeywords_eq, fun view' policy' hmethods hpackage =>
    packageKeywords_congr hmethods hpackage policy policy'⟩

/-- Two methods of one class, a method of a class that is not known, and an unknown method. -/
def sharedClass : Tables where
  enumeration := [2, 7, 0, 1]
  methods := [
    ⟨"<key.Main: void run()>", 0, [⟨"an id", none⟩]⟩, ⟨"<key.Main: void stop()>", 0, []⟩,
    ⟨"<id.Lost: void go()>", 9, []⟩]
  classes := [.ofName "key.Main"]
  callers := []
  methodCount := 3

/-- The same methods in another order and with repetitions, under other signatures and with other
bodies. -/
def sharedClassAgain : Tables where
  enumeration := [1, 0, 1, 2, 7, 7]
  methods := [⟨"a", 0, []⟩, ⟨"b", 0, [⟨"a key", none⟩]⟩, ⟨"c", 9, [⟨"an id", none⟩]⟩]
  classes := [⟨"other.Name", "key"⟩]
  callers := [(0, [1])]
  methodCount := 0

/-- One keyword stands in the package of the known class, and the other one in statements only. -/
theorem inspection_packages_sharedClass :
    (∀ id, id ∈ sharedClassAgain.view.methods ↔ id ∈ sharedClass.view.methods) ∧
    (∀ id ∈ sharedClass.view.methods,
      sharedClassAgain.view.package? id = sharedClass.view.package? id) ∧
    (runWith sharedClassAgain.view (.ofList ["id", "key"]) {} .substring).1.packageKeywords =
      (runWith sharedClass.view (.ofList ["id", "key"]) { interestedApiOnly := false }
        .substring).1.packageKeywords ∧
    "key" ∈ (runWith sharedClass.view (.ofList ["id", "key"]) { interestedApiOnly := false }
      .substring).1.packageKeywords ∧
    "id" ∉ (runWith sharedClass.view (.ofList ["id", "key"]) { interestedApiOnly := false }
      .substring).1.packageKeywords := by
  obtain ⟨hmem, heq, hsame⟩ := inspection_packages_exact sharedClass.view (.ofList ["id", "key"])
    { interestedApiOnly := false } .substring
  have hmethods : ∀ id, id ∈ sharedClassAgain.view.methods ↔ id ∈ sharedClass.view.methods := by
    intro id
    show id ∈ [1, 0, 1, 2, 7, 7] ↔ id ∈ [2, 7, 0, 1]
    simp only [List.mem_cons, List.not_mem_nil]
    tauto
  have hpackages : ∀ id ∈ sharedClass.view.methods,
      sharedClassAgain.view.package? id = sharedClass.view.package? id := by decide
  refine ⟨hmethods, hpackages, hsame _ _ hmethods hpackages, ?_, ?_⟩
  · exact (hmem "key").2 ⟨by decide, 0, by decide, _, _, rfl, rfl, by decide⟩
  · rw [heq, NameSet.mem_ofList]
    decide

end Inspection
end KeywordAudit
