import Mathlib.Data.List.Forall2
import KeywordAudit.KeywordList
import KeywordAudit.Text.Cut

/-!
# Reading keyword files

A keyword file is read line by line, and its lines are found by a scan that treats a carriage
return before a line feed and an unfinished last line apart.  All of this is lost when the lines
are trimmed and the empty ones dropped: the keywords are those of the pieces between the line
feeds.  From there follow the law for two files that are joined and the one for line ends.
-/

namespace KeywordAudit

open Text

namespace Text

/-! ## Carriage returns -/

/-- At most one carriage return is dropped, at the end. -/
theorem dropReturn_cases (line : List Char) :
    dropReturn line = line ∨ line = dropReturn line ++ ['\r'] := by
  fun_induction dropReturn line with
  | case1 => exact .inl rfl
  | case2 => exact .inr rfl
  | case3 c cs _ ih =>
    rcases ih with ih | ih
    · exact .inl (congrArg _ ih)
    · refine .inr ?_
      rw [List.cons_append, ← ih]

theorem trimChars_concat_return (line : List Char) : trimChars (line ++ ['\r']) = trimChars line :=
  trimChars_concat_of_blank (by decide) line

/-- Trimming takes the carriage return away in any case. -/
theorem trimChars_dropReturn (line : List Char) : trimChars (dropReturn line) = trimChars line := by
  rcases dropReturn_cases line with h | h
  · rw [h]
  · conv_rhs => rw [h]
    rw [trimChars_concat_return]

/-- `Returned cs ds` says that `ds` is `cs` with a carriage return put before some of its line
feeds. -/
inductive Returned : List Char → List Char → Prop where
  | nil : Returned [] []
  | keep (c : Char) {cs ds : List Char} : Returned cs ds → Returned (c :: cs) (c :: ds)
  | put {cs ds : List Char} : Returned cs ds → Returned ('\n' :: cs) ('\r' :: '\n' :: ds)

theorem Returned.refl : ∀ cs : List Char, Returned cs cs
  | [] => .nil
  | c :: cs => .keep c (refl cs)

/-- A carriage return may be put before any line feed. -/
theorem Returned.at (before after : List Char) :
    Returned (before ++ '\n' :: after) (before ++ '\r' :: '\n' :: after) := by
  induction before with
  | nil => exact .put (.refl after)
  | cons c before ih => exact .keep c ih

theorem pieces_cons_of_ne {c d : Char} {cs piece : List Char} {more : List (List Char)}
    (hd : d ≠ c) (h : pieces c cs = piece :: more) : pieces c (d :: cs) = (d :: piece) :: more := by
  rw [pieces, if_neg hd, h]

/-- Carriage returns before line feeds end the pieces between the line feeds. -/
theorem Returned.forall₂_pieces {cs ds : List Char} (h : Returned cs ds) :
    List.Forall₂ (fun piece piece' => piece' = piece ∨ piece' = piece ++ ['\r'])
      (pieces '\n' cs) (pieces '\n' ds) := by
  induction h with
  | nil => exact .cons (.inl rfl) .nil
  | @keep c cs ds _ ih =>
    by_cases hc : c = '\n'
    · subst hc
      exact .cons (.inl rfl) ih
    · -- the character goes in front of the first piece on both sides
      obtain ⟨piece, more, hpieces⟩ := List.exists_cons_of_ne_nil (pieces_ne_nil '\n' cs)
      obtain ⟨piece', more', hpieces'⟩ := List.exists_cons_of_ne_nil (pieces_ne_nil '\n' ds)
      rw [hpieces, hpieces', List.forall₂_cons] at ih
      rw [pieces_cons_of_ne hc hpieces, pieces_cons_of_ne hc hpieces']
      refine .cons ?_ ih.2
      rcases ih.1 with rfl | rfl
      · exact .inl rfl
      · exact .inr rfl
  | @put cs ds _ ih =>
    have hpieces : pieces '\n' ('\r' :: '\n' :: ds) = ['\r'] :: pieces '\n' ds :=
      pieces_cons_of_ne (by decide) rfl
    rw [hpieces]
    exact .cons (.inr rfl) ih

end Text

namespace KeywordList

/-! ## The keywords of lines -/

/-- The keywords that lines hold: the trimmed lines that are neither empty nor remarks. -/
def lineWords (lines : List String) : List String :=
  (lines.map trim).filter fun word => word ≠ "" ∧ word.toList.head? ≠ some '#'

theorem lineWords_append (xs ys : List String) :
    lineWords (xs ++ ys) = lineWords xs ++ lineWords ys := by
  rw [lineWords, List.map_append, List.filter_append, lineWords, lineWords]

theorem lineWords_cons (line : String) (lines : List String) :
    lineWords (line :: lines) = lineWords [line] ++ lineWords lines :=
  lineWords_append [line] lines

/-- Lines count as they are when trimmed. -/
theorem lineWords_congr {xs ys : List String} (h : xs.map trim = ys.map trim) :
    lineWords xs = lineWords ys := by
  rw [lineWords, h, lineWords]

/-- The keywords of a file are those of its lines, each at its first occurrence. -/
theorem toList_parse (text : String) :
    (parse text).toList = (lineWords ((lines text.toList).map String.ofList)).eraseDups := by
  rw [← distinct_eq_eraseDups]
  show distinct (words _) = _
  have htrimmed : ∀ xs : List String,
      ((xs.map trim).filter fun line => !isRemark line).map trim =
        (xs.map trim).filter fun line => !isRemark line := by
    intro xs
    conv_rhs => rw [← List.map_id ((xs.map trim).filter _)]
    apply List.map_congr_left
    intro word hword
    obtain ⟨line, -, rfl⟩ := List.mem_map.1 (List.mem_filter.1 hword).1
    exact trim_trim line
  have hlines : (lines text.toList).map (fun line => trim (String.ofList line)) =
      ((lines text.toList).map String.ofList).map trim := by
    rw [List.map_map]
    rfl
  rw [hlines, words, htrimmed, List.filter_filter, lineWords]
  congr 2
  funext word
  simp [isRemark]

/-! ## Lines and pieces -/

/-- A scan that has passed a part of a line finds the keywords of the pieces between the line
feeds: a line differs from its piece by a carriage return at most, and the last piece is left out
only if it is empty. -/
theorem lineWords_linesFrom {line : List Char} (h : '\n' ∉ line) (cs : List Char) :
    lineWords ((linesFrom line cs).map String.ofList) =
      lineWords ((pieces '\n' (line.reverse ++ cs)).map String.ofList) := by
  induction cs generalizing line with
  | nil =>
    have hpieces : pieces '\n' (line.reverse ++ []) = [line.reverse] := by
      rw [List.append_nil, pieces_eq_splitOn, List.splitOn_eq_singleton (by simpa using h)]
    rw [hpieces, linesFrom]
    split
    next hempty =>
      rw [List.isEmpty_iff.1 hempty]
      decide
    next => rfl
  | cons c cs ih =>
    rw [linesFrom]
    split
    next hc =>
      subst hc
      have hpieces : pieces '\n' (line.reverse ++ '\n' :: cs) = line.reverse :: pieces '\n' cs := by
        rw [pieces_eq_splitOn, pieces_eq_splitOn,
          List.splitOn_append_cons_self_of_not_mem (by simpa using h)]
      have hline : lineWords [String.ofList (dropReturn line.reverse)] =
          lineWords [String.ofList line.reverse] := by
        apply lineWords_congr
        simp only [List.map_cons, List.map_nil, trim, String.toList_ofList, trimChars_dropReturn]
      have hrest : lineWords ((linesFrom [] cs).map String.ofList) =
          lineWords ((pieces '\n' cs).map String.ofList) := ih List.not_mem_nil
      rw [hpieces, List.map_cons, List.map_cons, lineWords_cons, hline, hrest, ← lineWords_cons]
    next hc =>
      have hline : '\n' ∉ c :: line := by
        simp only [List.mem_cons, not_or]
        exact ⟨Ne.symm hc, h⟩
      rw [ih hline, List.reverse_cons, List.append_assoc, List.singleton_append]

/-- The keywords of a file are those of the pieces between its line feeds. -/
theorem toList_parse_eq_pieces (text : String) :
    (parse text).toList =
      (lineWords ((pieces '\n' text.toList).map String.ofList)).eraseDups := by
  rw [toList_parse, lines, lineWords_linesFrom List.not_mem_nil, List.reverse_nil, List.nil_append]

/-- Keyword lists with the same keywords in the same order are equal. -/
theorem eq_of_toList {ks ks' : KeywordList} (h : ks.toList = ks'.toList) : ks = ks' := by
  cases ks
  cases ks'
  simpa using h

theorem lineWords_of_mem {word : String} {lines : List String} (h : word ∈ lineWords lines) :
    (∃ line ∈ lines, trim line = word) ∧ word ≠ "" ∧ word.toList.head? ≠ some '#' := by
  rw [lineWords, List.mem_filter, decide_eq_true_eq, List.mem_map] at h
  exact h

/-- No keyword of a file is empty, untrimmed, a remark or longer than a line. -/
theorem word_of_mem_parse {word text : String} (h : word ∈ (parse text).toList) :
    word ≠ "" ∧ trim word = word ∧ word.toList.head? ≠ some '#' ∧ '\n' ∉ word.toList := by
  rw [toList_parse_eq_pieces, List.mem_eraseDups] at h
  obtain ⟨⟨line, hline, rfl⟩, hne, hremark⟩ := lineWords_of_mem h
  obtain ⟨piece, hpiece, rfl⟩ := List.mem_map.1 hline
  refine ⟨hne, trim_trim _, hremark, not_mem_trim ?_⟩
  rw [String.toList_ofList]
  exact not_mem_of_mem_pieces hpiece

/-- A file that goes on after a line feed adds the keywords of the second part that the first one
lacks. -/
theorem toList_parse_append (a b : String) :
    (parse (a ++ "\n" ++ b)).toList =
      (parse a).toList ++ (parse b).toList.filter (· ∉ (parse a).toList) := by
  have htext : (a ++ "\n" ++ b).toList = a.toList ++ '\n' :: b.toList := by simp
  have hpieces : pieces '\n' (a ++ "\n" ++ b).toList =
      pieces '\n' a.toList ++ pieces '\n' b.toList := by
    rw [htext, pieces_eq_splitOn, List.splitOn_append_cons_self, pieces_eq_splitOn,
      pieces_eq_splitOn]
  simp only [toList_parse_eq_pieces, ← distinct_eq_eraseDups]
  rw [hpieces, List.map_append, lineWords_append, distinct_append]

/-- Carriage returns before line feeds change no keyword. -/
theorem parse_of_returned {text text' : String} (h : Returned text.toList text'.toList) :
    parse text = parse text' := by
  have htrim : ((pieces '\n' text.toList).map String.ofList).map trim =
      ((pieces '\n' text'.toList).map String.ofList).map trim := by
    rw [List.map_map, List.map_map, ← List.forall₂_eq_eq_eq, List.forall₂_map_left_iff,
      List.forall₂_map_right_iff]
    refine h.forall₂_pieces.imp ?_
    rintro piece _ (rfl | rfl)
    · rfl
    · simp [trim, trimChars_concat_return]
  apply eq_of_toList
  rw [toList_parse_eq_pieces, toList_parse_eq_pieces, lineWords_congr htrim]

/-- **Reading keyword files.**  The keywords are the trimmed lines that are neither empty nor
remarks, each at its first occurrence; lines may be taken as the reader finds them or as the parts
between line feeds.  So no keyword comes twice, and none is empty, untrimmed, a remark or longer
than a line.  Files may be joined by a line feed, and carriage returns may be put before line feeds,
at one place or at many. -/
theorem keyword_text_exact (text : String) :
    (parse text).toList = (lineWords ((lines text.toList).map String.ofList)).eraseDups ∧
    (∀ parts : List String, parts ≠ [] → (∀ part ∈ parts, '\n' ∉ part.toList) →
      text = String.intercalate "\n" parts →
      (parse text).toList = (lineWords parts).eraseDups) ∧
    (parse text).toList.Nodup ∧
    (∀ word ∈ (parse text).toList,
      word ≠ "" ∧ trim word = word ∧ word.toList.head? ≠ some '#' ∧ '\n' ∉ word.toList) ∧
    (∀ more : String, (parse (text ++ "\n" ++ more)).toList =
      (parse text).toList ++ (parse more).toList.filter (· ∉ (parse text).toList)) ∧
    (∀ more : String, parse (text ++ "\r\n" ++ more) = parse (text ++ "\n" ++ more)) ∧
    ∀ text' : String, Returned text.toList text'.toList → parse text' = parse text := by
  refine ⟨toList_parse text, ?_, (parse text).nodup, fun word => word_of_mem_parse,
    toList_parse_append text, ?_, fun text' h => (parse_of_returned h).symm⟩
  · intro parts hne hparts htext
    rw [toList_parse_eq_pieces, htext, pieces_intercalate rfl hne hparts]
  · intro more
    have hreturn : (text ++ "\r\n" ++ more).toList =
        text.toList ++ '\r' :: '\n' :: more.toList := by simp
    have hplain : (text ++ "\n" ++ more).toList = text.toList ++ '\n' :: more.toList := by simp
    refine (parse_of_returned ?_).symm
    rw [hreturn, hplain]
    exact .at text.toList more.toList

/-- The keyword of the first line comes again after a remark, in a file with three kinds of line
ends; a second file repeats it once more. -/
theorem keyword_text_mixed :
    (parse "key \r\n\n # note\n\tkey\r").toList =
      (lineWords ["key \r", "", " # note", "\tkey\r"]).eraseDups ∧
    (parse "key \r\n\n # note\n\tkey\r").toList = ["key"] ∧
    (parse ("key \r\n\n # note\n\tkey\r" ++ "\n" ++ "id\nkey")).toList = ["key", "id"] ∧
    parse "key \r\r\n\r\n # note\n\tkey\r" = parse "key \r\n\n # note\n\tkey\r" := by
  obtain ⟨-, hparts, -, -, hmore, -, hreturned⟩ :=
    keyword_text_exact "key \r\n\n # note\n\tkey\r"
  have hlines := hparts ["key \r", "", " # note", "\tkey\r"] (by decide) (by decide) (by decide)
  have hone : (parse "key \r\n\n # note\n\tkey\r").toList = ["key"] := by
    rw [hlines]
    decide
  refine ⟨hlines, hone, ?_, hreturned _ ?_⟩
  · rw [hmore, hone]
    decide
  · show Returned
      ('k' :: 'e' :: 'y' :: ' ' :: '\r' :: '\n' :: '\n' :: " # note\n\tkey\r".toList)
      ('k' :: 'e' :: 'y' :: ' ' :: '\r' :: '\r' :: '\n' :: '\r' :: '\n' ::
        " # note\n\tkey\r".toList)
    exact .keep _ (.keep _ (.keep _ (.keep _ (.keep _ (.put (.put (.refl _)))))))

end KeywordList
end KeywordAudit
