/-!
# Increasing lists

A finite set of ordered values is kept as the list of its members in increasing order.
-/

namespace KeywordAudit

variable {α : Type} [LT α] [DecidableLT α] [DecidableEq α]

/-- Inserts a value at its place in an increasing list, unless it is there already. -/
def insertIncreasing (x : α) : List α → List α
  | [] => [x]
  | y :: ys =>
    if x < y then x :: y :: ys
    else if x = y then y :: ys
    else y :: insertIncreasing x ys

@[simp] theorem mem_insertIncreasing {x z : α} {ys : List α} :
    z ∈ insertIncreasing x ys ↔ z = x ∨ z ∈ ys := by
  induction ys with
  | nil => simp [insertIncreasing]
  | cons y ys ih =>
    rw [insertIncreasing]
    split
    · simp
    · split
      next h => subst h; simp
      next => simp only [List.mem_cons, ih, or_left_comm]

variable [LE α] [Std.LawfulOrderLT α] [Std.IsLinearOrder α]

/-- Insertion keeps the list increasing. -/
theorem pairwise_insertIncreasing (x : α) {ys : List α} (h : ys.Pairwise (· < ·)) :
    (insertIncreasing x ys).Pairwise (· < ·) := by
  induction ys with
  | nil => simp [insertIncreasing]
  | cons y ys ih =>
    obtain ⟨hy, hys⟩ := List.pairwise_cons.1 h
    rw [insertIncreasing]
    split
    next hlt =>
      refine List.pairwise_cons.2 ⟨?_, h⟩
      intro z hz
      rcases List.mem_cons.1 hz with rfl | hz
      · exact hlt
      · exact Std.lt_trans hlt (hy z hz)
    next hnlt =>
      split
      · exact h
      next hne =>
        refine List.pairwise_cons.2 ⟨?_, ih hys⟩
        intro z hz
        rcases mem_insertIncreasing.1 hz with rfl | hz
        · -- neither below nor equal, so above
          refine Decidable.byContradiction fun hnyz => hne ?_
          exact Std.le_antisymm (Std.not_lt.1 hnyz) (Std.not_lt.1 hnlt)
        · exact hy z hz

end KeywordAudit
