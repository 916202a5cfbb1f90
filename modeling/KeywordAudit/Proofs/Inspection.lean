import Mathlib.Data.List.Sort
import KeywordAudit.Analysis.Inspection

/-!
# What an inspection finds

The inspection is one pass with several accumulators.  Here each of them is read off the view
itself: the hits and the container statements as lists, the two keyword sets by their members.
What one method adds is said first (the step), and what all methods add follows by induction on
the methods in scope (the run).
-/

namespace KeywordAudit

/-- Two sets of names with the same members are equal. -/
theorem NameSet.ext {s t : NameSet} (h : ∀ x, x ∈ s ↔ x ∈ t) : s = t := by
  have hlist : s.toList = t.toList := s.increasing.eq_of_mem_iff t.increasing h
  cases s
  cases t
  simpa using hlist

/-! ## Keywords as parts of a text -/

/-- Containing a text is being put together from it and what stands around it. -/
theorem Text.contains_iff {text needle : String} :
    Text.contains text needle = true ↔ ∃ before after, text = before ++ needle ++ after := by
  rw [Text.contains, Text.occurs_iff]
  constructor
  · rintro ⟨before, after, h⟩
    refine ⟨String.ofList before, String.ofList after, String.toList_injective ?_⟩
    rw [String.toList_append, String.toList_append, String.toList_ofList, String.toList_ofList, h]
  · rintro ⟨before, after, rfl⟩
    refine ⟨before.toList, after.toList, ?_⟩
    rw [String.toList_append, String.toList_append]

/-- A keyword is found where it is not empty and stands as a part of the text. -/
theorem Matcher.substring_iff {text k : String} :
    Matcher.substring text k = true ↔ k ≠ "" ∧ ∃ before after, text = before ++ k ++ after := by
  rw [Matcher.substring, Bool.and_eq_true, decide_eq_true_eq, Text.contains_iff]

/-- Lists with distinct keys, put together along distinct indices that the keys tell, have
distinct keys. -/
theorem nodup_map_flatMap {α β γ : Type} {f : α → List β} {key : β → γ} {l : List α}
    (hl : l.Nodup) (hf : ∀ x ∈ l, ((f x).map key).Nodup)
    (hkey : ∀ x ∈ l, ∀ y ∈ l, ∀ b ∈ f x, ∀ c ∈ f y, key b = key c → x = y) :
    ((l.flatMap f).map key).Nodup := by
  rw [List.map_flatMap, List.nodup_flatMap]
  refine ⟨hf, hl.imp_of_mem ?_⟩
  intro x y hx hy hxy z hz hz'
  obtain ⟨b, hb, rfl⟩ := List.mem_map.1 hz
  obtain ⟨c, hc, hbc⟩ := List.mem_map.1 hz'
  exact hxy (hkey x hx y hy b hb c hc hbc.symm)

namespace Inspection

variable (view : ProgramView) (keywords : KeywordList) (policy : Policy) (found : Matcher)

/-! ## The hits of a view, spelled out -/

/-- The hits that a method of the given body should have: for each statement with its index, if
the policy searches it, each keyword that is found in its text. -/
def expectedInBody (id : MethodId) (body : List Statement) : List Hit :=
  body.zipIdx.flatMap fun (s, index) =>
    (policy.scopeOf s).toList.flatMap fun scope =>
      (keywords.toList.filter fun k => found s.text k).map fun k =>
        { method := id, index := index, text := s.text, keyword := k, scope := scope }

/-- The statements of a method that is known; an unknown one is passed over, whatever statements
the view has for it. -/
def knownStatements (id : MethodId) : List Statement :=
  (view.method id).toList.flatMap fun _ => view.statements id

/-- The hits that a view should have: those of each method in scope that is known, in order. -/
def expectedHits : List Hit :=
  view.methods.flatMap fun id =>
    expectedInBody keywords policy found id (knownStatements view id)

/-- The container statements that a view should have. -/
def expectedContainer : List String :=
  view.methods.flatMap fun id => containerUses policy (knownStatements view id)

variable {view keywords policy found}

/-- The hits that the pass collects in a body are the ones spelled out. -/
theorem bodyHits_eq (id : MethodId) (body : List Statement) :
    bodyHits keywords policy found id body = expectedInBody keywords policy found id body := by
  unfold bodyHits expectedInBody
  congr 1
  funext ⟨s, index⟩
  dsimp only
  cases policy.scopeOf s with
  | none => rfl
  | some scope => rw [Option.toList_some, List.flatMap_singleton]

/-- The hits in a body depend on the policy through the scopes of the statements alone. -/
theorem bodyHits_congr {policy' : Policy} (hscope : ∀ s, policy'.scopeOf s = policy.scopeOf s) :
    bodyHits keywords policy' found = bodyHits keywords policy found := by
  funext id body
  simp only [bodyHits, hscope]

theorem mem_expectedInBody {id : MethodId} {body : List Statement} {h : Hit} :
    h ∈ expectedInBody keywords policy found id body ↔
      h.method = id ∧ ∃ s, body[h.index]? = some s ∧ h.text = s.text ∧
        policy.scopeOf s = some h.scope ∧ h.keyword ∈ keywords.toList ∧
        found s.text h.keyword = true := by
  rw [expectedInBody, List.mem_flatMap]
  constructor
  · rintro ⟨⟨s, index⟩, hs, hh⟩
    obtain ⟨scope, hscope, hh⟩ := List.mem_flatMap.1 hh
    obtain ⟨k, hk, rfl⟩ := List.mem_map.1 hh
    obtain ⟨hmem, hfound⟩ := List.mem_filter.1 hk
    exact ⟨rfl, s, List.mk_mem_zipIdx_iff_getElem?.1 hs, rfl, Option.mem_toList.1 hscope, hmem,
      hfound⟩
  · rintro ⟨rfl, s, hs, htext, hscope, hmem, hfound⟩
    refine ⟨(s, h.index), List.mk_mem_zipIdx_iff_getElem?.2 hs, ?_⟩
    refine List.mem_flatMap.2 ⟨h.scope, Option.mem_toList.2 hscope, ?_⟩
    refine List.mem_map.2 ⟨h.keyword, List.mem_filter.2 ⟨hmem, hfound⟩, ?_⟩
    rw [← htext]

theorem knownStatements_of_none {id : MethodId} (h : view.method id = none) :
    knownStatements view id = [] := by
  rw [knownStatements, h]
  rfl

theorem knownStatements_of_some {id : MethodId} {m : Method} (h : view.method id = some m) :
    knownStatements view id = view.statements id := by
  rw [knownStatements, h, Option.toList_some, List.flatMap_singleton]

theorem expectedInBody_nil (id : MethodId) : expectedInBody keywords policy found id [] = [] := rfl

theorem containerUses_nil (policy : Policy) : containerUses policy [] = [] := by
  unfold containerUses
  split
  · rfl
  · rfl

theorem mem_expectedHits {h : Hit} :
    h ∈ expectedHits view keywords policy found ↔
      h.method ∈ view.methods ∧ ∃ m, view.method h.method = some m ∧
        h ∈ expectedInBody keywords policy found h.method (view.statements h.method) := by
  rw [expectedHits, List.mem_flatMap]
  constructor
  · rintro ⟨id, hid, hh⟩
    have hmethod : h.method = id := (mem_expectedInBody.1 hh).1
    rw [hmethod]
    cases hm : view.method id with
    | none =>
      rw [knownStatements_of_none hm] at hh
      exact absurd hh List.not_mem_nil
    | some m =>
      rw [knownStatements_of_some hm] at hh
      exact ⟨hid, m, rfl, hh⟩
  · rintro ⟨hid, m, hm, hh⟩
    refine ⟨h.method, hid, ?_⟩
    rw [knownStatements_of_some hm]
    exact hh

/-! ## One method -/

section Step

variable (pass : Pass) (id : MethodId)

/-- A class that was looked at is remembered, and so are all before it. -/
theorem seen_inspectClass {cid : ClassId} :
    (pass.inspectClass view keywords found id).seen.contains cid = true ↔
      cid = id ∨ pass.seen.contains cid = true := by
  unfold Pass.inspectClass
  split
  next hseen =>
    constructor
    · exact .inr
    · rintro (rfl | h)
      · exact hseen
      · exact h
  next =>
    have hinsert : (pass.seen.insert id).contains cid = true ↔
        cid = id ∨ pass.seen.contains cid = true := by
      rw [Std.HashSet.contains_insert, Bool.or_eq_true, beq_iff_eq, eq_comm]
    cases view.classDecl id with
    | none => exact hinsert
    | some c => exact hinsert

variable (view keywords found) in
/-- Looking at a class touches neither the hits nor the container statements. -/
theorem inspectClass_frame :
    (pass.inspectClass view keywords found id).hits = pass.hits ∧
    (pass.inspectClass view keywords found id).keywordsHit = pass.keywordsHit ∧
    (pass.inspectClass view keywords found id).containerStatements =
      pass.containerStatements := by
  unfold Pass.inspectClass
  split
  · exact ⟨rfl, rfl, rfl⟩
  · cases view.classDecl id with
    | none => exact ⟨rfl, rfl, rfl⟩
    | some c => exact ⟨rfl, rfl, rfl⟩

/-- A method adds the hits of its statements, their keywords and its container statements. -/
theorem inspectMethod_eq :
    (pass.inspectMethod view keywords policy found id).hits.toList = pass.hits.toList ++
      expectedInBody keywords policy found id (knownStatements view id) ∧
    (pass.inspectMethod view keywords policy found id).keywordsHit = pass.keywordsHit.insertAll
      ((expectedInBody keywords policy found id (knownStatements view id)).map Hit.keyword) ∧
    (pass.inspectMethod view keywords policy found id).containerStatements.toList =
      pass.containerStatements.toList ++ containerUses policy (knownStatements view id) := by
  unfold Pass.inspectMethod
  cases hm : view.method id with
  | none =>
    rw [knownStatements_of_none hm, expectedInBody_nil, containerUses_nil, List.append_nil,
      List.append_nil]
    exact ⟨rfl, rfl, rfl⟩
  | some m =>
    obtain ⟨hhits, hkeywords, hcontainer⟩ := inspectClass_frame view keywords found pass m.owner
    rw [knownStatements_of_some hm]
    dsimp only
    rw [hhits, hkeywords, hcontainer, bodyHits_eq, Array.toList_appendList,
      Array.toList_appendList]
    exact ⟨rfl, rfl, rfl⟩

/-- A method adds its class to those that were looked at. -/
theorem seen_inspectMethod {cid : ClassId} :
    (pass.inspectMethod view keywords policy found id).seen.contains cid = true ↔
      (∃ m, view.method id = some m ∧ m.owner = cid) ∨ pass.seen.contains cid = true := by
  unfold Pass.inspectMethod
  cases hm : view.method id with
  | none =>
    constructor
    · exact .inr
    · rintro (⟨m, hm', -⟩ | h)
      · exact absurd hm' (by simp)
      · exact h
  | some m =>
    show (pass.inspectClass view keywords found m.owner).seen.contains cid = true ↔ _
    rw [seen_inspectClass]
    constructor
    · rintro (rfl | h)
      · exact .inl ⟨m, rfl, rfl⟩
      · exact .inr h
    · rintro (⟨m', hm', rfl⟩ | h)
      · rw [Option.some.inj hm']
        exact .inl rfl
      · exact .inr h

end Step

variable (view keywords found) in
/-- The package keywords collected so far are those of the classes looked at so far. -/
def Pass.PackagesExact (pass : Pass) : Prop :=
  ∀ k, k ∈ pass.packageKeywords ↔ k ∈ keywords.toList ∧
    ∃ cid c, pass.seen.contains cid = true ∧ view.classDecl cid = some c ∧
      found c.package k = true

/-- Looking at a class once is enough: its keywords are in the set from then on. -/
theorem Pass.PackagesExact.inspectClass {pass : Pass}
    (h : pass.PackagesExact view keywords found) (id : ClassId) :
    (pass.inspectClass view keywords found id).PackagesExact view keywords found := by
  intro k
  simp only [seen_inspectClass]
  -- the classes seen afterwards: this one and those before
  have hsplit : (∃ cid c, (cid = id ∨ pass.seen.contains cid = true) ∧
      view.classDecl cid = some c ∧ found c.package k = true) ↔
      (∃ c, view.classDecl id = some c ∧ found c.package k = true) ∨
      ∃ cid c, pass.seen.contains cid = true ∧ view.classDecl cid = some c ∧
        found c.package k = true := by
    constructor
    · rintro ⟨cid, c, rfl | hseen, hc, hfound⟩
      · exact .inl ⟨c, hc, hfound⟩
      · exact .inr ⟨cid, c, hseen, hc, hfound⟩
    · rintro (⟨c, hc, hfound⟩ | ⟨cid, c, hseen, hc, hfound⟩)
      · exact ⟨id, c, .inl rfl, hc, hfound⟩
      · exact ⟨cid, c, .inr hseen, hc, hfound⟩
  rw [hsplit, and_or_left, ← h k]
  unfold Pass.inspectClass
  split
  next hseen =>
    constructor
    · exact .inr
    · rintro (⟨hk, c, hc, hfound⟩ | hk)
      · exact (h k).2 ⟨hk, id, c, hseen, hc, hfound⟩
      · exact hk
  next hseen =>
    cases hc : view.classDecl id with
    | none =>
      constructor
      · exact .inr
      · rintro (⟨-, c, hc', -⟩ | hk)
        · exact absurd hc' (by simp)
        · exact hk
    | some c =>
      show k ∈ pass.packageKeywords.insertAll _ ↔ _
      rw [NameSet.mem_insertAll, List.mem_filter]
      constructor
      · rintro (⟨hk, hfound⟩ | hk)
        · exact .inl ⟨hk, c, rfl, hfound⟩
        · exact .inr hk
      · rintro (⟨hk, c', hc', hfound⟩ | hk)
        · rw [← Option.some.inj hc'] at hfound
          exact .inl ⟨hk, hfound⟩
        · exact .inr hk

theorem Pass.PackagesExact.inspectMethod {pass : Pass}
    (h : pass.PackagesExact view keywords found) (id : MethodId) :
    (pass.inspectMethod view keywords policy found id).PackagesExact view keywords found := by
  unfold Pass.inspectMethod
  cases view.method id with
  | none => exact h
  | some m => exact h.inspectClass m.owner

/-! ## All methods -/

section Run

variable (ids : List MethodId) (pass : Pass)

/-- Methods add their hits, their keywords and their container statements one after another. -/
theorem foldl_inspectMethod_eq :
    (ids.foldl (Pass.inspectMethod view keywords policy found) pass).hits.toList =
      pass.hits.toList ++ (ids.flatMap fun id =>
        expectedInBody keywords policy found id (knownStatements view id)) ∧
    (∀ k, k ∈ (ids.foldl (Pass.inspectMethod view keywords policy found) pass).keywordsHit ↔
      k ∈ pass.keywordsHit ∨ k ∈ (ids.flatMap fun id =>
        expectedInBody keywords policy found id (knownStatements view id)).map Hit.keyword) ∧
    (ids.foldl (Pass.inspectMethod view keywords policy found) pass).containerStatements.toList =
      pass.containerStatements.toList ++ (ids.flatMap fun id =>
        containerUses policy (knownStatements view id)) := by
  induction ids generalizing pass with
  | nil =>
    simp only [List.foldl_nil, List.flatMap_nil, List.append_nil, List.map_nil, List.not_mem_nil,
      or_false, implies_true, and_self]
  | cons id ids ih =>
    obtain ⟨hhits, hkeywords, hcontainer⟩ :=
      ih (pass.inspectMethod view keywords policy found id)
    obtain ⟨hhits', hkeywords', hcontainer'⟩ := @inspectMethod_eq view keywords policy found pass id
    rw [List.foldl_cons, List.flatMap_cons, List.flatMap_cons, hhits, hcontainer, hhits',
      hcontainer', List.append_assoc, List.append_assoc]
    refine ⟨rfl, fun k => ?_, rfl⟩
    rw [hkeywords, hkeywords', NameSet.mem_insertAll, List.map_append, List.mem_append, or_assoc,
      or_left_comm]

/-- The classes looked at are those of the methods passed. -/
theorem seen_foldl_inspectMethod {cid : ClassId} :
    (ids.foldl (Pass.inspectMethod view keywords policy found) pass).seen.contains cid = true ↔
      (∃ id ∈ ids, ∃ m, view.method id = some m ∧ m.owner = cid) ∨
        pass.seen.contains cid = true := by
  induction ids generalizing pass with
  | nil => simp
  | cons id ids ih =>
    rw [List.foldl_cons, ih, seen_inspectMethod, List.exists_mem_cons_iff, ← or_assoc,
      or_comm (a := ∃ id ∈ ids, _)]

theorem packagesExact_foldl (h : pass.PackagesExact view keywords found) :
    (ids.foldl (Pass.inspectMethod view keywords policy found) pass).PackagesExact view keywords
      found := by
  induction ids generalizing pass with
  | nil => exact h
  | cons id ids ih => exact ih _ (h.inspectMethod id)

end Run

/-- The hits of an inspection are the ones spelled out. -/
theorem hits_runWith :
    (runWith view keywords policy found).1.hits = expectedHits view keywords policy found :=
  (foldl_inspectMethod_eq view.methods {}).1

/-- The container statements of an inspection are the ones spelled out. -/
theorem containerStatements_runWith :
    (runWith view keywords policy found).1.containerStatements = expectedContainer view policy :=
  (foldl_inspectMethod_eq view.methods {}).2.2

/-- The keywords hit are the keywords of the hits. -/
theorem mem_keywordsHit {k : String} :
    k ∈ (runWith view keywords policy found).1.keywordsHit ↔
      ∃ h ∈ (runWith view keywords policy found).1.hits, h.keyword = k := by
  have hmem := (@foldl_inspectMethod_eq view keywords policy found view.methods {}).2.1 k
  rw [hits_runWith, ← List.mem_map]
  show k ∈ (view.methods.foldl (Pass.inspectMethod view keywords policy found) {}).keywordsHit ↔ _
  rw [hmem]
  exact or_iff_right (NameSet.not_mem_empty k)

/-- The package keywords are those found in the package of a class that owns a method in scope. -/
theorem mem_packageKeywords {k : String} :
    k ∈ (runWith view keywords policy found).1.packageKeywords ↔
      k ∈ keywords.toList ∧ ∃ id ∈ view.methods, ∃ m c, view.method id = some m ∧
        view.classDecl m.owner = some c ∧ found c.package k = true := by
  have hempty : ({} : Pass).PackagesExact view keywords found := by
    intro k
    constructor
    · intro hk
      exact absurd hk (NameSet.not_mem_empty k)
    · rintro ⟨-, cid, c, hseen, -⟩
      exact absurd hseen (by simp)
  have hexact := @packagesExact_foldl view keywords policy found view.methods {} hempty k
  show k ∈ (view.methods.foldl (Pass.inspectMethod view keywords policy found)
    {}).packageKeywords ↔ _
  rw [hexact]
  refine and_congr_right fun _ => ?_
  constructor
  · rintro ⟨cid, c, hseen, hc, hfound⟩
    rcases (seen_foldl_inspectMethod view.methods {}).1 hseen with ⟨id, hid, m, hm, rfl⟩ | hseen
    · exact ⟨id, hid, m, c, hm, hc, hfound⟩
    · exact absurd hseen (by simp)
  · rintro ⟨id, hid, m, c, hm, hc, hfound⟩
    refine ⟨m.owner, c, ?_, hc, hfound⟩
    exact (seen_foldl_inspectMethod view.methods {}).2 (.inl ⟨id, hid, m, hm, rfl⟩)

/-! ## No hit is reported twice -/

/-- In one body no keyword is reported twice for a statement. -/
theorem nodup_expectedInBody (id : MethodId) (body : List Statement) :
    ((expectedInBody keywords policy found id body).map
      fun h => ((h.method, h.index), h.keyword)).Nodup := by
  have hstatements : body.zipIdx.Nodup := by
    refine List.Nodup.of_map Prod.snd ?_
    rw [List.zipIdx_map_snd]
    exact List.nodup_range'
  refine nodup_map_flatMap hstatements ?_ ?_
  · rintro ⟨s, index⟩ -
    dsimp only
    cases policy.scopeOf s with
    | none => exact List.nodup_nil
    | some scope =>
      -- within a statement the keyword alone tells the hits apart
      rw [Option.toList_some, List.flatMap_singleton, List.map_map]
      refine (keywords.nodup.filter _).map ?_
      intro k k' hk
      exact (Prod.mk.inj hk).2
  · rintro ⟨s, index⟩ hs ⟨s', index'⟩ hs' h hh h' hh' hkey
    obtain ⟨scope, -, hh⟩ := List.mem_flatMap.1 hh
    obtain ⟨k, -, rfl⟩ := List.mem_map.1 hh
    obtain ⟨scope', -, hh'⟩ := List.mem_flatMap.1 hh'
    obtain ⟨k', -, rfl⟩ := List.mem_map.1 hh'
    have hindex : index = index' := (Prod.mk.inj (Prod.mk.inj hkey).1).2
    rw [hindex, List.mk_mem_zipIdx_iff_getElem?] at hs
    rw [List.mk_mem_zipIdx_iff_getElem?, hs] at hs'
    rw [hindex, Option.some.inj hs']

/-- If no method is in scope twice, no keyword is reported twice for a statement. -/
theorem nodup_expectedHits (hnodup : view.methods.Nodup) :
    ((expectedHits view keywords policy found).map
      fun h => ((h.method, h.index), h.keyword)).Nodup := by
  refine nodup_map_flatMap hnodup ?_ ?_
  · intro id _
    exact nodup_expectedInBody id _
  · intro id _ id' _ h hh h' hh' hkey
    rw [← (mem_expectedInBody.1 hh).1, ← (mem_expectedInBody.1 hh').1]
    exact (Prod.mk.inj (Prod.mk.inj hkey).1).1

/-- **The hits of an inspection**: for each method in scope that is known, each of its statements
that the policy searches and each keyword that is found in it, in this order.  The keywords hit are
those of the hits, and where no method is in scope twice, as in every finished program, no keyword
is reported twice for a statement.  In finished programs and in tables the statements of a method
are those of its body. -/
theorem inspection_hits_exact (view : ProgramView) (keywords : KeywordList) (policy : Policy) :
    (∀ found : Matcher,
      (runWith view keywords policy found).1.hits =
        (view.methods.flatMap fun id => (view.method id).toList.flatMap fun _ =>
          (view.statements id).zipIdx.flatMap fun (s, index) =>
            (policy.scopeOf s).toList.flatMap fun scope =>
              (keywords.toList.filter fun k => found s.text k).map fun k =>
                { method := id, index := index, text := s.text, keyword := k, scope := scope }) ∧
      (∀ k, k ∈ (runWith view keywords policy found).1.keywordsHit ↔
        ∃ h ∈ (runWith view keywords policy found).1.hits, h.keyword = k) ∧
      (view.methods.Nodup → ((runWith view keywords policy found).1.hits.map
        fun h => ((h.method, h.index), h.keyword)).Nodup)) ∧
    run view keywords policy = runWith view keywords policy .substring ∧
    (∀ text k, Matcher.substring text k = true ↔
      k ≠ "" ∧ ∃ before after, text = before ++ k ++ after) ∧
    (∀ p : Program, p.view.methods.Nodup ∧
      ∀ id m, p.view.method id = some m → p.view.statements id = m.body) ∧
    ∀ t : Tables, ∀ id m, t.view.method id = some m → t.view.statements id = m.body := by
  refine ⟨fun found => ⟨?_, fun k => mem_keywordsHit, fun hnodup => ?_⟩, rfl,
    fun text k => Matcher.substring_iff, fun p => ⟨List.nodup_range, fun id m => ?_⟩,
    fun t id m => t.standard_view.statements_of_method⟩
  · rw [hits_runWith, expectedHits]
    refine List.flatMap_congr fun id _ => ?_
    cases hm : view.method id with
    | none =>
      rw [knownStatements_of_none hm]
      rfl
    | some m =>
      rw [knownStatements_of_some hm, Option.toList_some, List.flatMap_singleton]
      rfl
  · rw [hits_runWith]
    exact nodup_expectedHits hnodup
  · exact p.standard_view.statements_of_method

/-- Two methods in reverse order with an unknown one between them. -/
def twoMethods : Tables where
  enumeration := [1, 7, 0]
  methods := [
    ⟨"<a.Main: void run()>", 0, [⟨"idkey", none⟩]⟩,
    ⟨"<a.Main: void stop()>", 0, [⟨"nothing", none⟩, ⟨"a key", none⟩]⟩]
  classes := [.ofName "a.Main"]
  callers := []
  methodCount := 2

/-- Three hits in the order of the methods in scope, then of the statements, then of the
keywords. -/
theorem inspection_hits_twoMethods :
    twoMethods.view.methods.Nodup ∧
    (runWith twoMethods.view (.ofList ["id", "key"]) { interestedApiOnly := false }
      .substring).1.hits =
      [⟨1, 1, "a key", "key", .anyStatement⟩, ⟨0, 0, "idkey", "id", .anyStatement⟩,
        ⟨0, 0, "idkey", "key", .anyStatement⟩] ∧
    ((runWith twoMethods.view (.ofList ["id", "key"]) { interestedApiOnly := false }
      .substring).1.hits.map fun h => ((h.method, h.index), h.keyword)).Nodup := by
  have hscope : twoMethods.view.methods.Nodup := by decide
  obtain ⟨hexact, -, -, -, -⟩ := inspection_hits_exact twoMethods.view (.ofList ["id", "key"])
    { interestedApiOnly := false }
  obtain ⟨hhits, -, hnodup⟩ := hexact .substring
  refine ⟨hscope, ?_, hnodup hscope⟩
  rw [hhits]
  decide

end Inspection
end KeywordAudit
