import KeywordAudit.Proofs.KeywordText

/-!
# Writing keyword lists and reading them again

Keywords are written one a line.  What a file was read to is read again from what is written, and
so is every list of distinct, trimmed words that fit on a line and are no remarks; there are no
other lists that a file can be read to.  A keyword may hold carriage returns and other line
separators of Unicode inside: only a line feed ends a line, and only the ends of a line are
trimmed.
-/

namespace KeywordAudit

open Text

namespace KeywordList

/-! ## Words that stay as they are -/

/-- A word that a line can stand for: trimmed, not empty, no remark, and without a line feed. -/
structure IsLine (word : String) : Prop where
  nonempty : word ≠ ""
  trimmed : trim word = word
  noRemark : word.toList.head? ≠ some '#'
  oneLine : '\n' ∉ word.toList

theorem isLine_of_mem_parse {word text : String} (h : word ∈ (parse text).toList) :
    IsLine word := by
  obtain ⟨hne, htrim, hremark, hline⟩ := word_of_mem_parse h
  exact ⟨hne, htrim, hremark, hline⟩

/-- Trimmed words are the same after trimming. -/
theorem map_trim_eq_self {words : List String} (h : ∀ word ∈ words, trim word = word) :
    words.map trim = words := by
  rw [List.map_congr_left h]
  exact List.map_id words

/-- Lines that are words hold these words. -/
theorem lineWords_eq_self {words : List String} (h : ∀ word ∈ words, IsLine word) :
    lineWords words = words := by
  rw [lineWords, map_trim_eq_self fun word hword => (h word hword).trimmed, List.filter_eq_self]
  intro word hword
  exact decide_eq_true ⟨(h word hword).nonempty, (h word hword).noRemark⟩

/-- The keywords of a keyword list are the keyword list. -/
theorem ofList_toList (ks : KeywordList) : ofList ks.toList = ks := by
  apply eq_of_toList
  have hwords : words ks.toList = ks.toList := by
    rw [words, map_trim_eq_self fun word hword => (ks.trimmed word hword).2, List.filter_eq_self]
    intro word hword
    exact decide_eq_true (ks.trimmed word hword).1
  show distinct (words ks.toList) = ks.toList
  rw [hwords, distinct_eq_self ks.nodup]

/-! ## Written keywords -/

/-- Distinct words are read again from the text with one word a line. -/
theorem toList_parse_intercalate {words : List String} (hnodup : words.Nodup)
    (h : ∀ word ∈ words, IsLine word) :
    (parse (String.intercalate "\n" words)).toList = words := by
  by_cases hnone : words = []
  · rw [hnone]
    decide
  · have hpieces : (pieces '\n' (String.intercalate "\n" words).toList).map String.ofList = words :=
      pieces_intercalate rfl hnone fun word hword => (h word hword).oneLine
    rw [toList_parse_eq_pieces, hpieces, lineWords_eq_self h, ← distinct_eq_eraseDups,
      distinct_eq_self hnodup]

/-- A line feed at the end adds no keyword. -/
theorem parse_concat_newline (text : String) : parse (text ++ "\n") = parse text := by
  have hnone : (parse "").toList = [] := by decide
  have happend := toList_parse_append text ""
  rw [String.append_empty, hnone, List.filter_nil, List.append_nil] at happend
  exact eq_of_toList happend

/-- What was read is read again from what is written. -/
theorem parse_intercalate_parse (text : String) :
    parse (String.intercalate "\n" (parse text).toList) = parse text :=
  eq_of_toList (toList_parse_intercalate (parse text).nodup fun _ => isLine_of_mem_parse)

/-- **Reading and writing keyword lists.**  The keywords of a file, written one a line with or
without a last line feed, are read to the same keyword list again, and the keywords of any list make
the same list again.  The lists of words that some file is read to are those of distinct words that
lines can stand for. -/
theorem keyword_list_round_trip :
    (∀ text : String,
      parse (String.intercalate "\n" (parse text).toList) = parse text ∧
      parse (String.intercalate "\n" (parse text).toList ++ "\n") = parse text) ∧
    (∀ xs : List String, ofList (ofList xs).toList = ofList xs) ∧
    ∀ words : List String, (∃ text, (parse text).toList = words) ↔
      words.Nodup ∧ ∀ word ∈ words, IsLine word := by
  refine ⟨fun text => ⟨parse_intercalate_parse text, ?_⟩, fun xs => ofList_toList (ofList xs),
    fun words => ⟨?_, ?_⟩⟩
  · rw [parse_concat_newline]
    exact parse_intercalate_parse text
  · rintro ⟨text, rfl⟩
    exact ⟨(parse text).nodup, fun _ => isLine_of_mem_parse⟩
  · rintro ⟨hnodup, hwords⟩
    exact ⟨String.intercalate "\n" words, toList_parse_intercalate hnodup hwords⟩

/-- Keywords with a carriage return and a line separator inside, in a file that repeats one of them,
are read again.  They can be listed the other way round, but not together with a remark. -/
theorem keyword_list_round_trip_separators :
    (parse "a\rb \r\n# note\n\u2028c\u2028d\n\na\rb").toList = ["a\rb", "c\u2028d"] ∧
    parse "a\rb\nc\u2028d\n" = parse "a\rb \r\n# note\n\u2028c\u2028d\n\na\rb" ∧
    (∃ text, (parse text).toList = ["c\u2028d", "a\rb"]) ∧
    ¬∃ text, (parse text).toList = ["c\u2028d", "# a"] := by
  obtain ⟨hagain, -, hlists⟩ := keyword_list_round_trip
  have hread : (parse "a\rb \r\n# note\n\u2028c\u2028d\n\na\rb").toList =
      ["a\rb", "c\u2028d"] := by
    rw [toList_parse_eq_pieces]
    decide
  have hwritten := (hagain "a\rb \r\n# note\n\u2028c\u2028d\n\na\rb").2
  rw [hread] at hwritten
  refine ⟨hread, hwritten, (hlists _).2 ⟨by decide, fun word hword => ?_⟩, fun hexists => ?_⟩
  · simp only [List.mem_cons, List.not_mem_nil, or_false] at hword
    rcases hword with rfl | rfl
    · constructor <;> decide
    · constructor <;> decide
  · have hremark : IsLine "# a" := ((hlists _).1 hexists).2 _ (by simp)
    exact absurd rfl hremark.noRemark

end KeywordList
end KeywordAudit
