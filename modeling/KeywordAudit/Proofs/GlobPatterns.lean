import KeywordAudit.Glob

/-!
# What name patterns stand for

A star stands for any text.  The general matcher tries for each star all the texts that it may
stand for; what it decides is told here by a relation between patterns and texts.  Name patterns
are simpler: they have one star at most, in front or at the end, and then it is enough to compare
the end or the beginning of the text.  Both answer alike, also where the text is shorter than the
pattern or has stars itself.
-/

namespace KeywordAudit.Glob

/-! ## The meaning of patterns -/

/-- `StandsFor pattern text` says that the text is the pattern with some text in the place of each
star. -/
inductive StandsFor : List Char → List Char → Prop where
  | nil : StandsFor [] []
  | star (part : List Char) {pattern text : List Char} :
    StandsFor pattern text → StandsFor ('*' :: pattern) (part ++ text)
  | char {c : Char} {pattern text : List Char} :
    c ≠ '*' → StandsFor pattern text → StandsFor (c :: pattern) (c :: text)

/-- The general matcher: a star anywhere stands for any text, every other character for
itself. -/
def expands : List Char → List Char → Bool
  | [], text => text.isEmpty
  | p :: pattern, [] => p == '*' && expands pattern []
  | p :: pattern, c :: text =>
    if p == '*' then expands pattern (c :: text) || expands (p :: pattern) text
    else p == c && expands pattern text
termination_by pattern text => pattern.length + text.length

variable {pattern text : List Char}

theorem standsFor_nil_iff : StandsFor [] text ↔ text = [] := by
  constructor
  · intro h
    cases h
    rfl
  · rintro rfl
    exact .nil

theorem standsFor_star_iff : StandsFor ('*' :: pattern) text ↔
    ∃ part rest, text = part ++ rest ∧ StandsFor pattern rest := by
  constructor
  · intro h
    cases h with
    | star part hrest => exact ⟨part, _, rfl, hrest⟩
    | char hne _ => exact absurd rfl hne
  · rintro ⟨part, rest, rfl, hrest⟩
    exact .star part hrest

theorem standsFor_char_iff {c : Char} (hc : c ≠ '*') : StandsFor (c :: pattern) text ↔
    ∃ rest, text = c :: rest ∧ StandsFor pattern rest := by
  constructor
  · intro h
    cases h with
    | star => exact absurd rfl hc
    | char _ hrest => exact ⟨_, rfl, hrest⟩
  · rintro ⟨rest, rfl, hrest⟩
    exact .char hc hrest

/-- The general matcher finds out what a pattern stands for. -/
theorem expands_iff (pattern text : List Char) :
    expands pattern text = true ↔ StandsFor pattern text := by
  fun_induction expands pattern text with
  | case1 text => rw [standsFor_nil_iff, List.isEmpty_iff]
  | case2 p pattern ih =>
    rw [Bool.and_eq_true, beq_iff_eq, ih]
    constructor
    · rintro ⟨rfl, h⟩
      exact .star [] h
    · intro h
      by_cases hp : p = '*'
      · subst hp
        obtain ⟨part, rest, htext, hrest⟩ := standsFor_star_iff.1 h
        obtain ⟨-, rfl⟩ := List.append_eq_nil_iff.1 htext.symm
        exact ⟨rfl, hrest⟩
      · obtain ⟨rest, htext, -⟩ := (standsFor_char_iff hp).1 h
        cases htext
  | case3 p pattern c text hp ihEnd ihMore =>
    -- the star stands for nothing, or for the first character and what follows
    obtain rfl := beq_iff_eq.1 hp
    rw [Bool.or_eq_true, ihEnd, ihMore]
    constructor
    · rintro (h | h)
      · exact .star [] h
      · obtain ⟨part, rest, rfl, hrest⟩ := standsFor_star_iff.1 h
        exact .star (c :: part) hrest
    · intro h
      obtain ⟨part, rest, htext, hrest⟩ := standsFor_star_iff.1 h
      cases part with
      | nil =>
        rw [List.nil_append] at htext
        rw [htext]
        exact .inl hrest
      | cons d part =>
        rw [List.cons_append, List.cons.injEq] at htext
        exact .inr (standsFor_star_iff.2 ⟨part, rest, htext.2, hrest⟩)
  | case4 p pattern c text hp ih =>
    have hne : p ≠ '*' := fun h => hp (beq_iff_eq.2 h)
    rw [Bool.and_eq_true, beq_iff_eq, ih, standsFor_char_iff hne]
    constructor
    · rintro ⟨rfl, h⟩
      exact ⟨text, rfl, h⟩
    · rintro ⟨rest, htext, hrest⟩
      obtain ⟨rfl, rfl⟩ := List.cons.inj htext
      exact ⟨rfl, hrest⟩

/-- Characters other than the star stand for themselves. -/
theorem standsFor_append_iff {stem : List Char} (h : '*' ∉ stem) :
    StandsFor (stem ++ pattern) text ↔ ∃ rest, text = stem ++ rest ∧ StandsFor pattern rest := by
  induction stem generalizing text with
  | nil => simp
  | cons c stem ih =>
    simp only [List.mem_cons, not_or] at h
    rw [List.cons_append, standsFor_char_iff (Ne.symm h.1)]
    constructor
    · rintro ⟨behind, rfl, hbehind⟩
      obtain ⟨rest, rfl, hrest⟩ := (ih h.2).1 hbehind
      exact ⟨rest, rfl, hrest⟩
    · rintro ⟨rest, rfl, hrest⟩
      exact ⟨stem ++ rest, rfl, (ih h.2).2 ⟨rest, rfl, hrest⟩⟩

/-- A pattern without star stands for itself. -/
theorem standsFor_literal_iff (h : '*' ∉ pattern) : StandsFor pattern text ↔ text = pattern := by
  rw [← List.append_nil pattern, standsFor_append_iff h]
  simp [standsFor_nil_iff]

/-- A star in front of a literal text stands for whatever comes before that end. -/
theorem standsFor_ending_iff (h : '*' ∉ pattern) :
    StandsFor ('*' :: pattern) text ↔ pattern <:+ text := by
  rw [standsFor_star_iff]
  constructor
  · rintro ⟨part, rest, rfl, hrest⟩
    rw [(standsFor_literal_iff h).1 hrest]
    exact List.suffix_append part pattern
  · rintro ⟨part, rfl⟩
    exact ⟨part, pattern, rfl, (standsFor_literal_iff h).2 rfl⟩

/-- A star behind a literal text stands for whatever comes after that beginning. -/
theorem standsFor_starting_iff (h : '*' ∉ pattern) :
    StandsFor (pattern ++ ['*']) text ↔ pattern <+: text := by
  rw [standsFor_append_iff h]
  constructor
  · rintro ⟨rest, rfl, -⟩
    exact List.prefix_append pattern rest
  · rintro ⟨rest, rfl⟩
    exact ⟨rest, rfl, standsFor_star_iff.2 ⟨rest, [], (List.append_nil rest).symm, .nil⟩⟩

/-! ## Name patterns -/

/-- A name pattern has one star at most, as its first or its last character. -/
structure IsNamePattern (pattern : List Char) : Prop where
  once : pattern.count '*' ≤ 1
  atEnd : '*' ∈ pattern → pattern.head? = some '*' ∨ pattern.getLast? = some '*'

/-- A name pattern is `*tail`, `stem*` or a name. -/
theorem IsNamePattern.cases (h : IsNamePattern pattern) :
    (∃ tail, pattern = '*' :: tail ∧ '*' ∉ tail) ∨ (∃ stem, pattern = stem ++ ['*'] ∧ '*' ∉ stem) ∨
      '*' ∉ pattern := by
  by_cases hstar : '*' ∈ pattern
  · have honce := h.once
    rcases h.atEnd hstar with hhead | hlast
    · obtain ⟨tail, rfl⟩ := List.head?_eq_some_iff.1 hhead
      rw [List.count_cons_self] at honce
      exact .inl ⟨tail, rfl, List.count_eq_zero.1 (by omega)⟩
    · obtain ⟨stem, rfl⟩ := List.getLast?_eq_some_iff.1 hlast
      rw [List.count_append, List.count_singleton_self] at honce
      exact .inr (.inl ⟨stem, rfl, List.count_eq_zero.1 (by omega)⟩)
  · exact .inr (.inr hstar)

/-- With a star in front, the end of the name is compared. -/
theorem accepts_ending (tail text : List Char) :
    (ofChars ('*' :: tail)).accepts text = tail.isSuffixOf text := by
  cases tail with
  | nil => simp [ofChars, accepts]
  | cons c tail => rfl

/-- With a star at the end and none in front, the beginning of the name is compared. -/
theorem accepts_starting {stem : List Char} (h : stem.head? ≠ some '*') (text : List Char) :
    (ofChars (stem ++ ['*'])).accepts text = stem.isPrefixOf text := by
  cases stem with
  | nil => rfl
  | cons c stem =>
    have hc : c ≠ '*' := fun heq => h (congrArg some heq)
    have hread : ofChars (c :: stem ++ ['*']) = starting (c :: stem) := by
      simp [ofChars, hc]
    rw [hread, accepts]

/-- Without a star at the ends, the pattern is compared as a whole. -/
theorem ofChars_exactly (hhead : pattern.head? ≠ some '*') (hlast : pattern.getLast? ≠ some '*') :
    ofChars pattern = exactly pattern := by
  unfold ofChars
  split
  next => exact absurd rfl hhead
  next => exact absurd rfl hhead
  next =>
    split
    next stem hreverse =>
      rw [← List.head?_reverse, hreverse] at hlast
      exact absurd rfl hlast
    next => rfl

/-- A name pattern is compared with what it stands for. -/
theorem accepts_iff_standsFor (h : IsNamePattern pattern) :
    (ofChars pattern).accepts text = true ↔ StandsFor pattern text := by
  rcases h.cases with ⟨tail, rfl, htail⟩ | ⟨stem, rfl, hstem⟩ | hnone
  · rw [accepts_ending, standsFor_ending_iff htail, List.isSuffixOf_iff_suffix]
  · have hhead : stem.head? ≠ some '*' := fun hstar => hstem (List.mem_of_head? hstar)
    rw [accepts_starting hhead, standsFor_starting_iff hstem, List.isPrefixOf_iff_prefix]
  · have hhead : pattern.head? ≠ some '*' := fun hstar => hnone (List.mem_of_head? hstar)
    have hlast : pattern.getLast? ≠ some '*' := fun hstar => hnone (List.mem_of_getLast? hstar)
    rw [ofChars_exactly hhead hlast, standsFor_literal_iff hnone, accepts, beq_iff_eq, eq_comm]

/-- **What name patterns stand for.**  A name pattern and a text are compared by their ends, with
the same answer as the general matcher gives, and that matcher tells whether the text is the
pattern with some text in the place of each star.  A pattern with no star at its two ends fits
itself and nothing else, whatever stars it has inside. -/
theorem name_pattern_fits (pattern text : String) :
    (IsNamePattern pattern.toList → fits pattern text = expands pattern.toList text.toList) ∧
    (expands pattern.toList text.toList = true ↔ StandsFor pattern.toList text.toList) ∧
    (pattern.toList.head? ≠ some '*' → pattern.toList.getLast? ≠ some '*' →
      fits pattern text = decide (text = pattern)) := by
  refine ⟨fun h => ?_, expands_iff _ _, fun hhead hlast => ?_⟩
  · rw [Bool.eq_iff_iff, expands_iff]
    exact accepts_iff_standsFor h
  · rw [fits, ofChars_exactly hhead hlast, Bool.eq_iff_iff, accepts, beq_iff_eq,
      decide_eq_true_eq, String.toList_inj, eq_comm]

/-- A star in the text is a character like any other, a text that is too short does not fit, and a
star inside a pattern stands for itself only. -/
theorem name_pattern_fits_stars :
    IsNamePattern "*View".toList ∧ fits "*View" "a.*View" = true ∧
    StandsFor "*View".toList "a.*View".toList ∧
    IsNamePattern "java.*".toList ∧ fits "java.*" "java" = false ∧
    expands "java.*".toList "java".toList = false ∧
    fits "a*c" "a*c" = true ∧ fits "a*c" "abc" = false := by
  have hview : IsNamePattern "*View".toList := ⟨by decide, by decide⟩
  have hjava : IsNamePattern "java.*".toList := ⟨by decide, by decide⟩
  obtain ⟨hending, hmeaning, -⟩ := name_pattern_fits "*View" "a.*View"
  obtain ⟨hstarting, -, -⟩ := name_pattern_fits "java.*" "java"
  have hinside (text : String) : fits "a*c" text = decide (text = "a*c") :=
    (name_pattern_fits "a*c" text).2.2 (by decide) (by decide)
  have hfits : fits "*View" "a.*View" = true := by decide
  have hshort : fits "java.*" "java" = false := by decide
  refine ⟨hview, hfits, ?_, hjava, hshort, ?_, ?_, ?_⟩
  · rw [← hmeaning, ← hending hview, hfits]
  · rw [← hstarting hjava, hshort]
  · rw [hinside]
    decide
  · rw [hinside]
    decide

end KeywordAudit.Glob
