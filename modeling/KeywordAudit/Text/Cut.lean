/-!
# Cutting texts at a character

The readers of descriptors, class names and command lines cut a text at the first or the last
occurrence of one character.
-/

namespace KeywordAudit.Text

/-- Cuts at the first `c`: what stands before it and what stands after it. -/
def cutFirst (c : Char) : List Char → Option (List Char × List Char)
  | [] => none
  | d :: rest =>
    if d = c then some ([], rest)
    else (cutFirst c rest).map fun (before, after) => (d :: before, after)

/-- Cuts at the last `c`: what stands before it and what stands after it. -/
def cutLast (c : Char) : List Char → Option (List Char × List Char)
  | [] => none
  | d :: rest =>
    match cutLast c rest with
    | some (before, after) => some (d :: before, after)
    | none => if d = c then some ([], rest) else none

/-- The pieces between the occurrences of `c`; there is always at least one. -/
def pieces (c : Char) : List Char → List (List Char)
  | [] => [[]]
  | d :: rest =>
    if d = c then [] :: pieces c rest
    else match pieces c rest with
      | [] => [[d]]
      | piece :: more => (d :: piece) :: more

/-- The first cut puts the text back together, and no `c` stands before it. -/
theorem eq_append_of_cutFirst {c : Char} {cs before after : List Char}
    (h : cutFirst c cs = some (before, after)) : cs = before ++ c :: after ∧ c ∉ before := by
  induction cs generalizing before with
  | nil => simp [cutFirst] at h
  | cons d rest ih =>
    by_cases hd : d = c
    · simp only [cutFirst, if_pos hd, Option.some.injEq, Prod.mk.injEq] at h
      obtain ⟨rfl, rfl⟩ := h
      simp [hd]
    · simp only [cutFirst, if_neg hd, Option.map_eq_some_iff] at h
      obtain ⟨⟨before', after'⟩, hcut, heq⟩ := h
      simp only [Prod.mk.injEq] at heq
      obtain ⟨rfl, rfl⟩ := heq
      obtain ⟨rfl, hmem⟩ := ih hcut
      simp [hmem, Ne.symm hd]

/-- Cutting at the first `c` undoes putting a `c` between two parts, the first without `c`. -/
theorem cutFirst_append {c : Char} {before : List Char} (h : c ∉ before) (after : List Char) :
    cutFirst c (before ++ c :: after) = some (before, after) := by
  induction before with
  | nil => simp [cutFirst]
  | cons d rest ih =>
    simp only [List.mem_cons, not_or] at h
    simp [cutFirst, Ne.symm h.1, ih h.2]

/-- A text is cut at the first `c` into the parts around it, the first of them without `c`. -/
theorem cutFirst_eq_some_iff {c : Char} {cs before after : List Char} :
    cutFirst c cs = some (before, after) ↔ cs = before ++ c :: after ∧ c ∉ before := by
  constructor
  · exact eq_append_of_cutFirst
  · rintro ⟨rfl, h⟩
    exact cutFirst_append h after

/-- A text is not cut at its last `c` exactly if it has none. -/
theorem cutLast_eq_none_iff {c : Char} {cs : List Char} : cutLast c cs = none ↔ c ∉ cs := by
  induction cs with
  | nil => simp [cutLast]
  | cons d rest ih =>
    rw [cutLast, List.mem_cons, not_or]
    split
    next before after hcut =>
      have hmem : ¬c ∉ rest := by
        rw [← ih, hcut]
        exact Option.some_ne_none _
      simp [hmem]
    next hcut =>
      simp [ih.1 hcut, eq_comm]

/-- The last cut puts the text back together, and no `c` stands after it. -/
theorem eq_append_of_cutLast {c : Char} {cs before after : List Char}
    (h : cutLast c cs = some (before, after)) : cs = before ++ c :: after ∧ c ∉ after := by
  induction cs generalizing before after with
  | nil => simp [cutLast] at h
  | cons d rest ih =>
    rw [cutLast] at h
    split at h
    next before' after' hcut =>
      simp only [Option.some.injEq, Prod.mk.injEq] at h
      obtain ⟨rfl, rfl⟩ := h
      obtain ⟨rfl, hmem⟩ := ih hcut
      exact ⟨rfl, hmem⟩
    next hcut =>
      split at h
      next hd =>
        simp only [Option.some.injEq, Prod.mk.injEq] at h
        obtain ⟨rfl, rfl⟩ := h
        exact ⟨by simp [hd], cutLast_eq_none_iff.1 hcut⟩
      next => simp at h

/-- Cutting at the last `c` undoes putting a `c` between two parts, the second without `c`. -/
theorem cutLast_append {c : Char} (before : List Char) {after : List Char} (h : c ∉ after) :
    cutLast c (before ++ c :: after) = some (before, after) := by
  induction before with
  | nil =>
    rw [List.nil_append, cutLast, cutLast_eq_none_iff.2 h]
    exact if_pos rfl
  | cons d rest ih =>
    rw [List.cons_append, cutLast, ih]

/-- A text is cut at the last `c` into the parts around it, the second of them without `c`. -/
theorem cutLast_eq_some_iff {c : Char} {cs before after : List Char} :
    cutLast c cs = some (before, after) ↔ cs = before ++ c :: after ∧ c ∉ after := by
  constructor
  · exact eq_append_of_cutLast
  · rintro ⟨rfl, h⟩
    exact cutLast_append before h

/-- The pieces are those of the library. -/
theorem pieces_eq_splitOn (c : Char) (cs : List Char) : pieces c cs = cs.splitOn c := by
  induction cs with
  | nil => rfl
  | cons d rest ih =>
    rw [pieces, List.splitOn_cons_eq_if_modifyHead, ih]
    by_cases hd : d = c
    · rw [if_pos hd, if_pos (beq_iff_eq.2 hd)]
    · rw [if_neg hd, if_neg (by simpa using hd)]
      cases hpieces : rest.splitOn c with
      | nil => exact absurd hpieces (List.splitOn_ne_nil c rest)
      | cons piece more => rfl

/-- There is always a piece. -/
theorem pieces_ne_nil (c : Char) (cs : List Char) : pieces c cs ≠ [] := by
  rw [pieces_eq_splitOn]
  exact List.splitOn_ne_nil c cs

/-- No piece holds a `c`. -/
theorem not_mem_of_mem_pieces {c : Char} {cs piece : List Char} (h : piece ∈ pieces c cs) :
    c ∉ piece := by
  induction cs generalizing piece with
  | nil =>
    rw [List.mem_singleton.1 h]
    exact List.not_mem_nil
  | cons d rest ih =>
    rw [pieces] at h
    split at h
    next hd =>
      rcases List.mem_cons.1 h with rfl | h
      · exact List.not_mem_nil
      · exact ih h
    next hd =>
      split at h
      next =>
        rw [List.mem_singleton.1 h, List.mem_singleton]
        exact Ne.symm hd
      next first more hpieces =>
        rw [hpieces] at ih
        rcases List.mem_cons.1 h with rfl | h
        · have hfirst := ih List.mem_cons_self
          simp only [List.mem_cons, not_or]
          exact ⟨Ne.symm hd, hfirst⟩
        · exact ih (List.mem_cons_of_mem _ h)

/-- Texts without `c` that are joined by `c` are the pieces of the whole. -/
theorem pieces_intercalate {c : Char} {sep : String} (hsep : sep.toList = [c])
    {parts : List String} (hne : parts ≠ []) (h : ∀ part ∈ parts, c ∉ part.toList) :
    (pieces c (sep.intercalate parts).toList).map String.ofList = parts := by
  have hsplit : pieces c (sep.intercalate parts).toList = parts.map String.toList := by
    rw [String.toList_intercalate, hsep, pieces_eq_splitOn]
    refine List.splitOn_intercalate c ?_ (by simpa using hne)
    intro l hl
    obtain ⟨part, hpart, rfl⟩ := List.mem_map.1 hl
    exact h part hpart
  rw [hsplit, List.map_map]
  simp [Function.comp_def]

/-- The pieces of a text, joined by `c`, are the text again. -/
theorem intercalate_pieces {c : Char} {sep : String} (hsep : sep.toList = [c]) (s : String) :
    sep.intercalate ((pieces c s.toList).map String.ofList) = s := by
  rw [← String.toList_inj, String.toList_intercalate, hsep, List.map_map]
  have hid : String.toList ∘ String.ofList = id := by
    funext cs
    exact String.toList_ofList
  rw [hid, List.map_id, pieces_eq_splitOn, List.intercalate_splitOn]

end KeywordAudit.Text
