/-!
# First occurrences

Lists in which each value stands once, at the place where it was first seen.
-/

namespace KeywordAudit

/-- The values of a list that are not in `seen`, each at its first occurrence only. -/
def distinctFrom {α : Type} [DecidableEq α] (seen : List α) : List α → List α
  | [] => []
  | x :: xs => if x ∈ seen then distinctFrom seen xs else x :: distinctFrom (x :: seen) xs

/-- The values of a list, each at its first occurrence only. -/
def distinct {α : Type} [DecidableEq α] (xs : List α) : List α :=
  distinctFrom [] xs

variable {α : Type} [DecidableEq α]

/-- The values kept are those of the list that were not seen before. -/
theorem mem_distinctFrom {x : α} {seen xs : List α} :
    x ∈ distinctFrom seen xs ↔ x ∈ xs ∧ x ∉ seen := by
  induction xs generalizing seen with
  | nil => simp [distinctFrom]
  | cons y ys ih =>
    by_cases hy : y ∈ seen
    · simp only [distinctFrom, if_pos hy, ih, List.mem_cons]
      constructor
      · rintro ⟨h, hs⟩; exact ⟨.inr h, hs⟩
      · rintro ⟨rfl | h, hs⟩
        · exact absurd hy hs
        · exact ⟨h, hs⟩
    · simp only [distinctFrom, if_neg hy, List.mem_cons, ih, not_or]
      constructor
      · rintro (rfl | ⟨h, -, hs⟩)
        · exact ⟨.inl rfl, hy⟩
        · exact ⟨.inr h, hs⟩
      · rintro ⟨rfl | h, hs⟩
        · exact .inl rfl
        · by_cases hxy : x = y
          · exact .inl hxy
          · exact .inr ⟨h, hxy, hs⟩

/-- No value is kept twice. -/
theorem nodup_distinctFrom (seen xs : List α) : (distinctFrom seen xs).Nodup := by
  induction xs generalizing seen with
  | nil => simp [distinctFrom]
  | cons y ys ih =>
    by_cases hy : y ∈ seen
    · simpa [distinctFrom, hy] using ih seen
    · simp [distinctFrom, hy, List.nodup_cons, mem_distinctFrom, ih]

@[simp] theorem mem_distinct {x : α} {xs : List α} : x ∈ distinct xs ↔ x ∈ xs := by
  simp [distinct, mem_distinctFrom]

theorem nodup_distinct (xs : List α) : (distinct xs).Nodup :=
  nodup_distinctFrom [] xs

/-- What was seen matters only as a set. -/
theorem distinctFrom_congr {seen seen' : List α} (h : ∀ x, x ∈ seen ↔ x ∈ seen') (xs : List α) :
    distinctFrom seen xs = distinctFrom seen' xs := by
  induction xs generalizing seen seen' with
  | nil => rfl
  | cons y ys ih =>
    by_cases hy : y ∈ seen
    · simp only [distinctFrom, if_pos hy, if_pos ((h y).1 hy), ih h]
    · have hcons : ∀ x, x ∈ y :: seen ↔ x ∈ y :: seen' := by
        intro x
        simp only [List.mem_cons, h x]
      simp only [distinctFrom, if_neg hy, if_neg fun hy' => hy ((h y).2 hy'), ih hcons]

/-- The values of a second list are those that the first one has not shown. -/
theorem distinctFrom_append (seen xs ys : List α) :
    distinctFrom seen (xs ++ ys) =
      distinctFrom seen xs ++ distinctFrom (seen ++ distinctFrom seen xs) ys := by
  induction xs generalizing seen with
  | nil => simp [distinctFrom]
  | cons x xs ih =>
    by_cases hx : x ∈ seen
    · simp only [List.cons_append, distinctFrom, if_pos hx, ih]
    · simp only [List.cons_append, distinctFrom, if_neg hx, ih]
      refine congrArg _ (congrArg _ (distinctFrom_congr (fun z => ?_) ys))
      simp only [List.mem_append, List.mem_cons, or_left_comm]

/-- A list without repetitions keeps all its values. -/
theorem distinctFrom_eq_self {seen xs : List α} (hnodup : xs.Nodup) (hseen : ∀ x ∈ xs, x ∉ seen) :
    distinctFrom seen xs = xs := by
  induction xs generalizing seen with
  | nil => rfl
  | cons y ys ih =>
    obtain ⟨hy, hys⟩ := List.nodup_cons.1 hnodup
    have hy' : y ∉ seen := hseen y (by simp)
    simp only [distinctFrom, if_neg hy']
    rw [ih hys]
    intro x hx
    simp only [List.mem_cons, not_or]
    exact ⟨fun h => hy (h ▸ hx), hseen x (by simp [hx])⟩

theorem distinct_eq_self {xs : List α} (h : xs.Nodup) : distinct xs = xs :=
  distinctFrom_eq_self h (by simp)

/-- What is left out afterwards may as well have been seen before. -/
theorem filter_distinctFrom (seen known xs : List α) :
    (distinctFrom known xs).filter (· ∉ seen) = distinctFrom (seen ++ known) xs := by
  induction xs generalizing known with
  | nil => rfl
  | cons x xs ih =>
    by_cases hknown : x ∈ known
    · have hx : x ∈ seen ++ known := List.mem_append_right _ hknown
      rw [distinctFrom, if_pos hknown, ih, distinctFrom, if_pos hx]
    · rw [distinctFrom, if_neg hknown, List.filter_cons, ih, distinctFrom]
      by_cases hseen : x ∈ seen
      · rw [if_neg (by simpa using hseen), if_pos (List.mem_append_left _ hseen)]
        -- the value is among those seen, so it need not be added to the known ones
        refine distinctFrom_congr (fun z => ?_) xs
        simp only [List.mem_append, List.mem_cons]
        constructor
        · rintro (hz | rfl | hz)
          · exact .inl hz
          · exact .inl hseen
          · exact .inr hz
        · rintro (hz | hz)
          · exact .inl hz
          · exact .inr (.inr hz)
      · have hx : x ∉ seen ++ known := by simp [hseen, hknown]
        rw [if_pos (by simpa using hseen), if_neg hx]
        refine congrArg _ (distinctFrom_congr (fun z => ?_) xs)
        simp only [List.mem_append, List.mem_cons, or_left_comm]

/-- Of two lists together, the second one adds what the first one lacks. -/
theorem distinct_append (xs ys : List α) :
    distinct (xs ++ ys) = distinct xs ++ (distinct ys).filter (· ∉ distinct xs) := by
  rw [distinct, distinctFrom_append, List.nil_append, distinct, distinct, filter_distinctFrom,
    List.append_nil]

/-- The first occurrences are those that the library keeps. -/
theorem distinct_eq_eraseDups (xs : List α) : distinct xs = xs.eraseDups := by
  have hfrom : ∀ seen : List α,
      distinctFrom seen xs = (xs.filter (· ∉ seen)).eraseDups := by
    induction xs with
    | nil =>
      intro seen
      rfl
    | cons x xs ih =>
      intro seen
      by_cases hx : x ∈ seen
      · rw [distinctFrom, if_pos hx, List.filter_cons_of_neg (by simpa using hx), ih]
      · have hsplit : (fun z => decide (z ∉ x :: seen)) =
            fun z => !z == x && decide (z ∉ seen) := by
          funext z
          rw [Bool.eq_iff_iff]
          simp
        rw [distinctFrom, if_neg hx, List.filter_cons_of_pos (by simpa using hx),
          List.eraseDups_cons, List.filter_filter, ih, hsplit]
  rw [distinct, hfrom, List.filter_eq_self.2]
  intro x _
  simp

end KeywordAudit
