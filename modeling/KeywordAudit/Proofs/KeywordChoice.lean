import Mathlib.Data.List.Perm.Basic
import KeywordAudit.Proofs.PlainResolution
import KeywordAudit.Proofs.WiderSearch

/-!
# Other keywords

Every keyword is looked for on its own.  If only some of the keywords are looked for, the hits are
those for all of them less the hits of the keywords left out, in the same order.  If they are
looked for in another order, only the hits within one statement change places: the statements are
passed as before, and each is searched for one keyword after the other.  What follows from the hits
does not depend on their order, and so it stays the same.
-/

namespace KeywordAudit

/-- Fewer keywords in the same order are all keywords less those that are left out. -/
theorem KeywordList.filter_of_sublist {fewer keywords : KeywordList}
    (h : fewer.toList.Sublist keywords.toList) :
    keywords.toList.filter (fewer.contains ·) = fewer.toList := by
  have hself : fewer.toList.filter (fewer.contains ·) = fewer.toList := by
    refine List.filter_eq_self.2 fun k hk => ?_
    exact List.contains_iff_mem.2 hk
  have hsublist : fewer.toList.Sublist (keywords.toList.filter (fewer.contains ·)) := by
    have hfilter := h.filter (fewer.contains ·)
    rw [hself] at hfilter
    exact hfilter
  -- both lists name each of their members once, and they have the same members
  have hperm : fewer.toList.Perm (keywords.toList.filter (fewer.contains ·)) := by
    refine (List.perm_ext_iff_of_nodup fewer.nodup (keywords.nodup.filter _)).2 fun k => ?_
    rw [List.mem_filter, KeywordList.contains, List.contains_iff_mem]
    exact ⟨fun hk => ⟨h.subset hk, hk⟩, fun hk => hk.2⟩
  exact (hsublist.eq_of_length hperm.length_eq).symm

namespace Inspection

variable {view : ProgramView} {policy : Policy} {found : Matcher}

/-! ## Fewer keywords -/

section Fewer

variable {fewer keywords : KeywordList} (h : fewer.toList.Sublist keywords.toList)

include h

/-- In a body, fewer keywords have the hits that name one of them. -/
theorem expectedInBody_of_sublist (id : MethodId) (body : List Statement) :
    expectedInBody fewer policy found id body =
      (expectedInBody keywords policy found id body).filter
        fun hit => fewer.contains hit.keyword := by
  rw [expectedInBody, expectedInBody, List.filter_flatMap]
  refine List.flatMap_congr fun entry _ => ?_
  obtain ⟨s, index⟩ := entry
  dsimp only
  rw [List.filter_flatMap]
  refine List.flatMap_congr fun scope _ => ?_
  rw [List.filter_map, List.filter_filter, ← KeywordList.filter_of_sublist h, List.filter_filter]
  congr 1
  refine List.filter_congr fun k _ => ?_
  exact Bool.and_comm _ _

theorem hits_of_sublist :
    (runWith view fewer policy found).1.hits =
      (runWith view keywords policy found).1.hits.filter
        fun hit => fewer.contains hit.keyword := by
  rw [hits_runWith, hits_runWith, expectedHits, expectedHits, List.filter_flatMap]
  exact List.flatMap_congr fun id _ => expectedInBody_of_sublist h id _

theorem mem_keywordsHit_of_sublist {k : String} :
    k ∈ (runWith view fewer policy found).1.keywordsHit ↔
      k ∈ (runWith view keywords policy found).1.keywordsHit ∧ k ∈ fewer.toList := by
  rw [mem_keywordsHit, mem_keywordsHit, hits_of_sublist h]
  simp only [List.mem_filter, KeywordList.contains, List.contains_iff_mem]
  constructor
  · rintro ⟨hit, ⟨hhit, hk⟩, rfl⟩
    exact ⟨⟨hit, hhit, rfl⟩, hk⟩
  · rintro ⟨⟨hit, hhit, rfl⟩, hk⟩
    exact ⟨hit, ⟨hhit, hk⟩, rfl⟩

theorem mem_packageKeywords_of_sublist {k : String} :
    k ∈ (runWith view fewer policy found).1.packageKeywords ↔
      k ∈ (runWith view keywords policy found).1.packageKeywords ∧ k ∈ fewer.toList := by
  rw [mem_packageKeywords, mem_packageKeywords]
  constructor
  · rintro ⟨hk, hfound⟩
    exact ⟨⟨h.subset hk, hfound⟩, hk⟩
  · rintro ⟨⟨-, hfound⟩, hk⟩
    exact ⟨hk, hfound⟩

end Fewer

/-! ## The same keywords in another order -/

section Reordered

variable {reordered keywords : KeywordList} (h : reordered.toList.Perm keywords.toList)

include h

/-- In a body, the hits change places within a statement. -/
theorem expectedInBody_perm (id : MethodId) (body : List Statement) :
    (expectedInBody reordered policy found id body).Perm
      (expectedInBody keywords policy found id body) := by
  refine List.Perm.flatMap_left _ fun entry _ => ?_
  obtain ⟨s, index⟩ := entry
  refine List.Perm.flatMap_left _ fun scope _ => ?_
  exact (h.filter _).map _

theorem hits_perm :
    (runWith view reordered policy found).1.hits.Perm
      (runWith view keywords policy found).1.hits := by
  rw [hits_runWith, hits_runWith]
  exact List.Perm.flatMap_left _ fun id _ => expectedInBody_perm h id _

theorem keywordsHit_perm :
    (runWith view reordered policy found).1.keywordsHit =
      (runWith view keywords policy found).1.keywordsHit := by
  refine NameSet.ext fun k => ?_
  rw [mem_keywordsHit, mem_keywordsHit]
  simp only [(hits_perm h).mem_iff]

theorem packageKeywords_perm :
    (runWith view reordered policy found).1.packageKeywords =
      (runWith view keywords policy found).1.packageKeywords := by
  refine NameSet.ext fun k => ?_
  rw [mem_packageKeywords, mem_packageKeywords, h.mem_iff]

/-- The methods with hits are the same, and so is what a resolution makes of them. -/
theorem resolution_perm (v : ProgramView) (fin : v.CallersFinite) :
    (Resolution.run v fin (runWith view reordered policy found).1.hits).1 =
      (Resolution.run v fin (runWith view keywords policy found).1.hits).1 :=
  Resolution.run_eq_of_methods fun _ => ((hits_perm h).map Hit.method).mem_iff

end Reordered

/-- **Keywords do not get in each other's way.**  An inspection for fewer keywords, in the same
order, has the hits of the full one that name one of them, in the same order, and those of its
keywords and package keywords that are among them.  An inspection for the same keywords in another
order has the same hits up to their order and everything else the same: keywords, package keywords,
container statements and, in whatever view the hits are resolved, the resolution, that is, the root
callers of every method and the root caller classes. -/
theorem inspection_keywords_apart (view : ProgramView) (policy : Policy) (found : Matcher)
    (keywords : KeywordList) :
    let full := (runWith view keywords policy found).1
    (∀ fewer : KeywordList, fewer.toList.Sublist keywords.toList →
      let part := (runWith view fewer policy found).1
      part.hits = full.hits.filter (fun hit => fewer.contains hit.keyword) ∧
      (∀ k, k ∈ part.keywordsHit ↔ k ∈ full.keywordsHit ∧ k ∈ fewer.toList) ∧
      ∀ k, k ∈ part.packageKeywords ↔ k ∈ full.packageKeywords ∧ k ∈ fewer.toList) ∧
    ∀ reordered : KeywordList, reordered.toList.Perm keywords.toList →
      let other := (runWith view reordered policy found).1
      other.hits.Perm full.hits ∧
      other.keywordsHit = full.keywordsHit ∧
      other.packageKeywords = full.packageKeywords ∧
      other.containerStatements = full.containerStatements ∧
      ∀ (v : ProgramView) (fin : v.CallersFinite),
        (Resolution.run v fin other.hits).1 = (Resolution.run v fin full.hits).1 := by
  intro full
  refine ⟨fun fewer h => ⟨hits_of_sublist h, fun k => mem_keywordsHit_of_sublist h, fun k =>
    mem_packageKeywords_of_sublist h⟩, fun reordered h => ⟨hits_perm h, keywordsHit_perm h,
    packageKeywords_perm h, ?_, resolution_perm h⟩⟩
  exact containerStatements_runWith.trans containerStatements_runWith.symm

/-- Without the first keyword, the hits of the second remain; in reverse, the two hits of one
statement change places. -/
theorem inspection_keywords_twoMethods :
    let policy : Policy := { interestedApiOnly := false }
    let full := (runWith twoMethods.view (.ofList ["id", "key"]) policy .substring).1
    let part := (runWith twoMethods.view (.ofList ["key"]) policy .substring).1
    let other := (runWith twoMethods.view (.ofList ["key", "id"]) policy .substring).1
    (KeywordList.ofList ["key"]).toList.Sublist (KeywordList.ofList ["id", "key"]).toList ∧
    part.hits = [⟨1, 1, "a key", "key", .anyStatement⟩, ⟨0, 0, "idkey", "key", .anyStatement⟩] ∧
    (KeywordList.ofList ["key", "id"]).toList.Perm (KeywordList.ofList ["id", "key"]).toList ∧
    other.hits ≠ full.hits ∧ other.hits.Perm full.hits ∧
    (Resolution.run twoMethods.view twoMethods.callersFinite other.hits).1 =
      (Resolution.run twoMethods.view twoMethods.callersFinite full.hits).1 := by
  intro policy full part other
  obtain ⟨hfewer, hreordered⟩ := inspection_keywords_apart twoMethods.view policy .substring
    (.ofList ["id", "key"])
  have hsublist : (KeywordList.ofList ["key"]).toList.Sublist
      (KeywordList.ofList ["id", "key"]).toList := by decide
  have hperm : (KeywordList.ofList ["key", "id"]).toList.Perm
      (KeywordList.ofList ["id", "key"]).toList := by decide
  obtain ⟨hhits, -, -⟩ := hfewer _ hsublist
  obtain ⟨hsame, -, -, -, hresolved⟩ := hreordered _ hperm
  have hfull : full.hits = expectedHits twoMethods.view (.ofList ["id", "key"]) policy
    .substring := hits_runWith
  have hother : other.hits = expectedHits twoMethods.view (.ofList ["key", "id"]) policy
    .substring := hits_runWith
  refine ⟨hsublist, ?_, hperm, ?_, hsame, hresolved _ _⟩
  · show (runWith twoMethods.view (.ofList ["key"]) policy .substring).1.hits = _
    rw [hhits, hits_runWith]
    decide
  · rw [hfull, hother]
    decide

end Inspection
end KeywordAudit
