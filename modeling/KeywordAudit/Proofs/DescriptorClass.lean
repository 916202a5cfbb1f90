import KeywordAudit.Classification
import KeywordAudit.Proofs.DescriptorGrammar

/-!
# The class of a descriptor

The class that a text names can be read without reading the rest: what stands between the first
angle bracket and the first colon.  That reader passes over the closing bracket, so it also accepts
texts that break off; but on every descriptor it finds the class that the full reader finds, since
both cut at the same colon.  So it makes no difference which of them the classes are told apart by.
-/

namespace KeywordAudit

open Text

namespace Descriptor

/-- The opening bracket and the colon, as characters. -/
theorem opening_iff {s owner rest : String} : trim s = "<" ++ owner ++ ":" ++ rest ↔
    trimChars s.toList = '<' :: (owner.toList ++ ':' :: rest.toList) := by
  rw [← String.toList_inj, toList_trim]
  simp

/-- A text names a class when it begins, blanks aside, with an opening bracket, the class and a
colon. -/
theorem classOf?_eq_some_iff {s name : String} :
    classOf? s = some name ↔ ∃ owner rest : String,
      trim s = "<" ++ owner ++ ":" ++ rest ∧ ':' ∉ owner.toList ∧
        trim owner = name ∧ name ≠ "" := by
  simp only [opening_iff]
  rw [classOf?]
  split
  next inside hinside =>
    simp only [Option.bind_eq_bind, Option.bind_eq_some_iff, Prod.exists, cutFirst_eq_some_iff]
    constructor
    · rintro ⟨owner, rest, ⟨rfl, hcolon⟩, hname⟩
      split at hname
      · cases hname
      next howner =>
        obtain ⟨owner, rfl⟩ := exists_toList owner
        obtain ⟨rest, rfl⟩ := exists_toList rest
        obtain rfl : trim owner = name := Option.some.inj hname
        refine ⟨owner, rest, hinside, hcolon, rfl, fun hblank => ?_⟩
        exact howner (List.isEmpty_iff.2 (trim_eq_empty_iff.1 hblank))
    · rintro ⟨owner, rest, hopening, hcolon, rfl, hne⟩
      rw [hinside, List.cons.injEq] at hopening
      refine ⟨owner.toList, rest.toList, ⟨hopening.2, hcolon⟩, ?_⟩
      rw [if_neg fun hempty => hne (trim_eq_empty_iff.2 (List.isEmpty_iff.1 hempty))]
      rfl
  next hnone =>
    constructor
    · intro h
      cases h
    · rintro ⟨owner, rest, hopening, -⟩
      exact absurd hopening (hnone _)

/-- The class of a descriptor is named by every text that is read as the descriptor: the colon
stands at the same place, whether or not the closing bracket is taken off before. -/
theorem classOf?_of_parse? {s : String} {d : Descriptor} (h : parse? s = some d) :
    classOf? s = some d.className := by
  obtain ⟨q, hspell, hmean⟩ := parse?_eq_some_iff.1 h
  rw [classOf?_eq_some_iff]
  refine ⟨q.owner, q.rest ++ ">", ?_, hspell.colon, hmean.className.symm, ?_⟩
  · rw [hspell.outer, String.append_assoc]
  · rw [hmean.className]
    exact hspell.owner

/-- The patterns are asked for the class of a descriptor. -/
theorem targetFits_of_parse? {s : String} {d : Descriptor} (h : parse? s = some d)
    (patterns : List String) :
    Classification.targetFits patterns s = Glob.fitsAny patterns d.className := by
  rw [Classification.targetFits, classOf?_of_parse? h, Option.any_some]

/-- **The two readers of classes.**  Where a text is read as a descriptor, the class that it names
is that of the descriptor, so whatever the patterns are, the target is classified by that class.
A class is named by exactly the texts that begin with an opening bracket, the class with blanks
around it, and a colon. -/
theorem class_readers_agree (s : String) :
    (∀ d, parse? s = some d → classOf? s = some d.className ∧
      ∀ c : Classification,
        c.isInteresting s = Glob.fitsAny c.interestingApis d.className ∧
        c.isLibrary s = Glob.fitsAny c.libraryPackages d.className) ∧
    ∀ name, classOf? s = some name ↔ ∃ owner rest : String,
      trim s = "<" ++ owner ++ ":" ++ rest ∧ ':' ∉ owner.toList ∧
        trim owner = name ∧ name ≠ "" := by
  refine ⟨fun d h => ⟨classOf?_of_parse? h, fun c => ⟨?_, ?_⟩⟩, fun name => classOf?_eq_some_iff⟩
  · exact targetFits_of_parse? h c.interestingApis
  · exact targetFits_of_parse? h c.libraryPackages

/-- A descriptor with a second colon in its name is classified by what stands before the first one;
of a text that breaks off after the colon only the class is read. -/
theorem class_readers_agree_secondColon :
    parse? " <java.util.Map :int  get:all(x)>\n" =
      some ⟨"java.util.Map", "int", "get:all", ["x"]⟩ ∧
    classOf? " <java.util.Map :int  get:all(x)>\n" = some "java.util.Map" ∧
    ({} : Classification).isInteresting " <java.util.Map :int  get:all(x)>\n" = true ∧
    ({} : Classification).isLibrary " <java.util.Map :int  get:all(x)>\n" = false ∧
    parse? "<\tjava.util.Map:" = none ∧ classOf? "<\tjava.util.Map:" = some "java.util.Map" := by
  have hread : parse? " <java.util.Map :int  get:all(x)>\n" =
      some ⟨"java.util.Map", "int", "get:all", ["x"]⟩ := by decide
  obtain ⟨hnamed, hclassified⟩ := (class_readers_agree _).1 _ hread
  obtain ⟨hinteresting, hlibrary⟩ := hclassified {}
  refine ⟨hread, hnamed, ?_, ?_, by decide, ?_⟩
  · rw [hinteresting]
    decide
  · rw [hlibrary]
    decide
  · exact ((class_readers_agree _).2 _).2
      ⟨"\tjava.util.Map", "", by decide, by decide, by decide, by decide⟩

end Descriptor
end KeywordAudit
