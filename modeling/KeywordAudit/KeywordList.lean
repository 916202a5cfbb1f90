import KeywordAudit.Text.Blank
import KeywordAudit.Text.Lines
import KeywordAudit.Distinct

/-!
# Keyword lists

The words to look for, in the order in which they were first given.  A keyword is trimmed and not
empty, and none is listed twice.
-/

namespace KeywordAudit

open Text

/-- The words to look for. -/
structure KeywordList where
  toList : List String
  nodup : toList.Nodup
  trimmed : ∀ k ∈ toList, k ≠ "" ∧ trim k = k

namespace KeywordList

/-- The words of a list, trimmed, the empty ones left out. -/
def words (xs : List String) : List String :=
  (xs.map trim).filter (· ≠ "")

theorem trimmed_of_mem_words {k : String} {xs : List String} (h : k ∈ words xs) :
    k ≠ "" ∧ trim k = k := by
  simp only [words, List.mem_filter, List.mem_map, decide_eq_true_eq, ne_eq] at h
  obtain ⟨⟨s, -, rfl⟩, hne⟩ := h
  exact ⟨hne, trim_trim s⟩

/-- The keywords of a list: trimmed, not empty, each at its first occurrence. -/
def ofList (xs : List String) : KeywordList where
  toList := distinct (words xs)
  nodup := nodup_distinct _
  trimmed := fun _ hk => trimmed_of_mem_words (mem_distinct.1 hk)

/-- The list without keywords. -/
def empty : KeywordList := ofList []

instance : Inhabited KeywordList := ⟨empty⟩

/-- Whether a line holds a remark and no keyword. -/
def isRemark (line : String) : Bool :=
  line.toList.head? = some '#'

/-- Reads a keyword file: one keyword a line, lines that begin with `#` are remarks. -/
def parse (content : String) : KeywordList :=
  ofList (((lines content.toList).map fun line => trim (String.ofList line)).filter
    fun line => !isRemark line)

/-- The number of keywords. -/
def size (ks : KeywordList) : Nat := ks.toList.length

/-- Whether there is no keyword. -/
def isEmpty (ks : KeywordList) : Bool := ks.toList.isEmpty

/-- Whether a word is one of the keywords. -/
def contains (ks : KeywordList) (word : String) : Bool := ks.toList.contains word

end KeywordList
end KeywordAudit
