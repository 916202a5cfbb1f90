/-!
# Blank characters and trimming

Texts are trimmed of every character that Unicode calls white space.  The zero-width characters
and the information separators are not white space and stay.
-/

namespace KeywordAudit.Text

/-! ## The class of blank characters -/

/-- The code points with the Unicode property `White_Space`. -/
def blankCodes : List Nat :=
  [0x09, 0x0A, 0x0B, 0x0C, 0x0D, 0x20, 0x85, 0xA0, 0x1680,
   0x2000, 0x2001, 0x2002, 0x2003, 0x2004, 0x2005, 0x2006, 0x2007, 0x2008, 0x2009, 0x200A,
   0x2028, 0x2029, 0x202F, 0x205F, 0x3000]

/-- A character is blank when Unicode calls it white space. -/
def isBlank (c : Char) : Bool :=
  blankCodes.contains c.toNat

/-! ## Trimming -/

/-- A list of characters without the blanks at its two ends. -/
def trimChars (cs : List Char) : List Char :=
  ((cs.dropWhile isBlank).reverse.dropWhile isBlank).reverse

/-- A text without the blanks at its two ends. -/
def trim (s : String) : String :=
  String.ofList (trimChars s.toList)

/-- The characters of a trimmed text. -/
@[simp] theorem toList_trim (s : String) : (trim s).toList = trimChars s.toList := by
  simp [trim]

@[simp] theorem trimChars_nil : trimChars [] = [] := rfl

/-! ## Trimming twice -/

/-- Dropping at the end leaves nothing to drop in front if there was nothing before. -/
theorem dropWhile_reverse_dropWhile {α : Type} (p : α → Bool) {xs : List α}
    (h : xs.dropWhile p = xs) :
    ((xs.reverse.dropWhile p).reverse).dropWhile p = (xs.reverse.dropWhile p).reverse := by
  cases hys : (xs.reverse.dropWhile p).reverse with
  | nil => rfl
  | cons y ys =>
    obtain ⟨zs, hzs⟩ := List.dropWhile_suffix (l := xs.reverse) p
    have hxs : xs = (y :: ys) ++ zs.reverse := by
      rw [← hys, ← List.reverse_append, hzs, List.reverse_reverse]
    subst hxs
    by_cases hy : p y = true
    · have hlen := congrArg List.length h
      have hle := (List.dropWhile_sublist (l := ys ++ zs.reverse) p).length_le
      simp only [List.cons_append, List.dropWhile_cons_of_pos hy, List.length_cons] at hlen
      omega
    · simp [hy]

/-- Trimming trimmed characters changes nothing. -/
@[simp] theorem trimChars_trimChars (cs : List Char) :
    trimChars (trimChars cs) = trimChars cs := by
  -- what is dropped a second time would stand behind characters that are all dropped the first time
  have hagain : ∀ xs : List Char,
      (xs.dropWhile isBlank).dropWhile isBlank = xs.dropWhile isBlank := by
    intro xs
    have hblank : ∀ c ∈ xs.takeWhile isBlank, isBlank c = true :=
      List.all_eq_true.1 List.all_takeWhile
    rw [← List.dropWhile_append_of_pos hblank, List.takeWhile_append_dropWhile]
  have hfront := dropWhile_reverse_dropWhile isBlank (hagain cs)
  unfold trimChars
  rw [hfront, List.reverse_reverse, hagain]

/-- Trimming a trimmed text changes nothing. -/
@[simp] theorem trim_trim (s : String) : trim (trim s) = trim s := by
  rw [trim, toList_trim, trimChars_trimChars, trim]

/-! ## What trimming takes away -/

/-- A blank in front is trimmed. -/
theorem trimChars_cons_of_blank {c : Char} (h : isBlank c = true) (cs : List Char) :
    trimChars (c :: cs) = trimChars cs := by
  rw [trimChars, List.dropWhile_cons_of_pos h, trimChars]

/-- A blank at the end is trimmed. -/
theorem trimChars_concat_of_blank {c : Char} (h : isBlank c = true) (cs : List Char) :
    trimChars (cs ++ [c]) = trimChars cs := by
  rw [trimChars, trimChars, List.dropWhile_append]
  split
  next hempty =>
    rw [List.isEmpty_iff.1 hempty, List.dropWhile_cons_of_pos h, List.dropWhile_nil]
  next =>
    rw [List.reverse_append, List.reverse_singleton, List.singleton_append,
      List.dropWhile_cons_of_pos h]

/-- Trimming only takes characters away. -/
theorem trimChars_sublist (cs : List Char) : (trimChars cs).Sublist cs := by
  have hback : (trimChars cs).Sublist (cs.dropWhile isBlank).reverse.reverse :=
    (List.dropWhile_sublist isBlank).reverse
  rw [List.reverse_reverse] at hback
  exact hback.trans (List.dropWhile_sublist isBlank)

/-- A character that a text lacks is not in the trimmed text. -/
theorem not_mem_trim {c : Char} {s : String} (h : c ∉ s.toList) : c ∉ (trim s).toList := by
  rw [toList_trim]
  exact fun hmem => h ((trimChars_sublist s.toList).subset hmem)

/-- Nothing is trimmed where characters that are not blank stand at both ends. -/
theorem trimChars_cons_concat {c d : Char} (hc : isBlank c = false) (hd : isBlank d = false)
    (cs : List Char) : trimChars (c :: (cs ++ [d])) = c :: (cs ++ [d]) := by
  have hfront : (c :: (cs ++ [d])).dropWhile isBlank = c :: (cs ++ [d]) :=
    List.dropWhile_cons_of_neg (by simp [hc])
  have hback : (d :: (c :: cs).reverse).dropWhile isBlank = d :: (c :: cs).reverse :=
    List.dropWhile_cons_of_neg (by simp [hd])
  rw [trimChars, hfront, ← List.cons_append, List.reverse_append, List.reverse_singleton,
    List.singleton_append, hback, List.reverse_cons, List.reverse_reverse]

/-- What is left begins with no blank. -/
theorem not_blank_of_trimChars_eq_cons {c : Char} {cs rest : List Char}
    (h : trimChars cs = c :: rest) : isBlank c = false := by
  rw [Bool.eq_false_iff]
  intro hblank
  have htwice := trimChars_trimChars cs
  rw [h, trimChars_cons_of_blank hblank] at htwice
  have hle := (trimChars_sublist rest).length_le
  rw [htwice, List.length_cons] at hle
  omega

/-- Where a character that is not blank stands in front, something is left. -/
theorem trimChars_cons_ne_nil {c : Char} (h : isBlank c = false) (cs : List Char) :
    trimChars (c :: cs) ≠ [] := by
  intro hnil
  have hkept : (c :: cs).dropWhile isBlank = c :: cs := List.dropWhile_cons_of_neg (by simp [h])
  rw [trimChars, hkept, List.reverse_eq_nil_iff, List.reverse_cons, List.dropWhile_append] at hnil
  split at hnil
  · simp [h] at hnil
  · simp at hnil

end KeywordAudit.Text
