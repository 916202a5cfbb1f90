import KeywordAudit.Proofs.SearchRounds

/-!
# The row of marks

A search keeps its marks in a row that starts with one place for each method to expect and grows
when it meets a larger number.  Whatever the numbers and their order, the row holds exactly the
numbers that were marked: growing adds unset places behind the others, and the place of a number is
there when it is read and set.

So the first length of the row makes no difference.  Two searches that start with rows of
different lengths stand alike after every round, and find the same root callers in the same order.
-/

namespace KeywordAudit

namespace Marks

/-! ## One number -/

/-- Growing adds unset places at the end. -/
theorem flags_grow (row : Marks) (size : Nat) :
    (row.grow size).flags = row.flags ++ Array.replicate (size - row.flags.size) false := by
  unfold grow
  split
  next => rfl
  next hle =>
    have hzero : size - row.flags.size = 0 := by omega
    rw [hzero, Array.replicate_zero, Array.append_empty]

/-- A row is as long as it was, or long enough for the number that was marked. -/
theorem size_mark (row : Marks) (id : Nat) :
    (row.mark id).2.flags.size = max row.flags.size (id + 1) := by
  show ((row.grow (id + 1)).flags.setIfInBounds id true).size = _
  rw [Array.size_setIfInBounds, flags_grow, Array.size_append, Array.size_replicate]
  omega

/-- Marking a number on a row on which the given numbers are marked does what it should: it answers
whether the number is new, the grown row is the old one with unset places behind it and has a place
for the number, only that place is read and set, and no mark is lost. -/
structure MarksExactly (row : Marks) (ids : List MethodId) (id : MethodId) : Prop where
  answer : (row.mark id).1 = true ↔ id ∉ ids
  grown : (row.grow (id + 1)).flags =
    row.flags ++ Array.replicate (id + 1 - row.flags.size) false
  inBounds : ∃ h : id < (row.grow (id + 1)).flags.size,
    row.mark id = (!(row.grow (id + 1)).flags[id], ⟨(row.grow (id + 1)).flags.set id true h⟩)
  kept : ∀ other, row.has other = true →
    (row.grow (id + 1)).has other = true ∧ (row.mark id).2.has other = true

theorem marksExactly {row : Marks} {ids : List MethodId}
    (h : ∀ id, row.has id = true ↔ id ∈ ids) (id : MethodId) : row.MarksExactly ids id := by
  refine ⟨?_, flags_grow row (id + 1), ⟨lt_size_grow row id, ?_⟩, fun other hother => ⟨?_, ?_⟩⟩
  · rw [fst_mark, Bool.not_eq_true', ← Bool.not_eq_true, h id]
  · have hlt := lt_size_grow row id
    simp only [mark, has, Array.getElem?_eq_getElem hlt, Option.getD_some, Array.setIfInBounds,
      dif_pos hlt]
  · rw [has_grow]
    exact hother
  · rw [has_mark, hother, Bool.or_true]

/-! ## Numbers one by one -/

/-- The row that starts with the given length and without marks, after numbers were marked one by
one. -/
def rowAfter (size : Nat) (ids : List MethodId) : Marks :=
  ids.foldl (fun row id => (row.mark id).2) (none size)

theorem rowAfter_concat (size : Nat) (ids : List MethodId) (id : MethodId) :
    rowAfter size (ids ++ [id]) = ((rowAfter size ids).mark id).2 := by
  rw [rowAfter, List.foldl_concat, rowAfter]

/-- The row holds the numbers that were marked. -/
theorem has_rowAfter (size : Nat) (ids : List MethodId) (id : MethodId) :
    (rowAfter size ids).has id = true ↔ id ∈ ids := by
  induction ids using List.reverseRecOn with
  | nil => simp [rowAfter]
  | append_singleton ids last ih =>
    rw [rowAfter_concat, has_mark, Bool.or_eq_true, decide_eq_true_eq, ih, List.mem_append,
      List.mem_singleton, or_comm]

/-- The row is as long as its first length and its numbers ask for, and no longer. -/
theorem size_rowAfter_le_iff (size : Nat) (ids : List MethodId) (limit : Nat) :
    (rowAfter size ids).flags.size ≤ limit ↔ size ≤ limit ∧ ∀ id ∈ ids, id + 1 ≤ limit := by
  induction ids using List.reverseRecOn with
  | nil => simp [rowAfter, none]
  | append_singleton ids last ih =>
    rw [rowAfter_concat, size_mark, Nat.max_le, ih, and_assoc, List.forall_mem_append,
      List.forall_mem_singleton]

end Marks

namespace RootSearch

variable {callers : MethodId → List MethodId} {marks marks' : Marks}

/-! ## The row of a search -/

theorem markAll_eq_foldl (marks : Marks) (cs : List MethodId) :
    (markAll marks cs).1 = cs.foldl (fun row id => (row.mark id).2) marks := by
  induction cs generalizing marks with
  | nil => rfl
  | cons c cs ih => exact ih _

/-- A level marks the callers that it is told, one by one. -/
theorem marks_expand (marks : Marks) (ms : List MethodId) :
    (expand callers marks ms).marks =
      (ms.flatMap callers).foldl (fun row id => (row.mark id).2) marks := by
  induction ms generalizing marks with
  | nil => rfl
  | cons m ms ih =>
    rw [List.flatMap_cons, List.foldl_append, ← markAll_eq_foldl marks]
    exact ih _

/-- A round marks the callers that it is told, so the row stays the one after all of them. -/
theorem marks_round {s : Standing} {size : Nat} {start : MethodId}
    (h : s.marks = Marks.rowAfter size (start :: s.asked.flatMap Expansion.callers)) :
    (round callers s).marks =
      Marks.rowAfter size (start :: (round callers s).asked.flatMap Expansion.callers) := by
  have htold : (expand callers s.marks s.frontier).expansions.flatMap Expansion.callers =
      s.frontier.flatMap callers := by
    rw [expansions_expand, List.flatMap_map]
  rw [round, marks_expand, List.flatMap_append, htold, h, Marks.rowAfter, Marks.rowAfter,
    ← List.foldl_append, List.cons_append]

/-! ## Rows of different lengths -/

/-- Rows with the same marks tell the same methods new. -/
theorem markAll_same (h : ∀ m, marks'.has m = marks.has m) (cs : List MethodId) :
    (markAll marks' cs).2 = (markAll marks cs).2 := by
  induction cs generalizing marks marks' with
  | nil => rfl
  | cons c cs ih =>
    have hnext : ∀ m, (marks'.mark c).2.has m = (marks.mark c).2.has m := by
      intro m
      rw [Marks.has_mark, Marks.has_mark, h m]
    simp only [markAll, Marks.fst_mark, h c, ih hnext]

/-- Rows with the same marks lead to the same next level. -/
theorem next_expand_same (h : ∀ m, marks'.has m = marks.has m) (ms : List MethodId) :
    (expand callers marks' ms).next = (expand callers marks ms).next := by
  induction ms generalizing marks marks' with
  | nil => rfl
  | cons n ms ih =>
    have hnext : ∀ m,
        (markAll marks' (callers n)).1.has m = (markAll marks (callers n)).1.has m := by
      intro m
      rw [Bool.eq_iff_iff, has_markAll, has_markAll, h m]
    simp only [expand, markAll_same h (callers n), ih hnext]

/-- Two searches stand alike when they differ in the lengths of their rows at most. -/
structure Standing.Alike (s s' : Standing) : Prop where
  marks : ∀ m, s'.marks.has m = s.marks.has m
  frontier : s'.frontier = s.frontier
  asked : s'.asked = s.asked

/-- Searches that stand alike do so after one more round. -/
theorem Standing.Alike.round {s s' : Standing} (h : s.Alike s') :
    (round callers s).Alike (round callers s') := by
  refine ⟨fun m => ?_, ?_, ?_⟩
  · show (expand callers s'.marks s'.frontier).marks.has m =
      (expand callers s.marks s.frontier).marks.has m
    rw [Bool.eq_iff_iff, has_expand, has_expand, h.marks m, h.frontier]
  · show (expand callers s'.marks s'.frontier).next = (expand callers s.marks s.frontier).next
    rw [h.frontier]
    exact next_expand_same h.marks s.frontier
  · show s'.asked ++ (expand callers s'.marks s'.frontier).expansions =
      s.asked ++ (expand callers s.marks s.frontier).expansions
    rw [h.asked, h.frontier, expansions_expand, expansions_expand]

end RootSearch

namespace ProgramView

/-- Between two rounds the row is the one after the start and all callers that the search was
told. -/
theorem marks_afterRounds (v : ProgramView) (start : MethodId) (n : Nat) :
    (v.afterRounds start n).marks = Marks.rowAfter v.methodCount
      (start :: (v.afterRounds start n).asked.flatMap Expansion.callers) := by
  induction n with
  | zero => rfl
  | succ n ih =>
    rw [afterRounds, Function.iterate_succ_apply']
    exact RootSearch.marks_round ih

/-- Whatever number of methods is expected, the search stands alike after every round. -/
theorem alike_afterRounds (v : ProgramView) (count : Nat) (start : MethodId) (n : Nat) :
    (v.afterRounds start n).Alike ({ v with methodCount := count }.afterRounds start n) := by
  induction n with
  | zero =>
    refine ⟨fun m => ?_, rfl, rfl⟩
    show ((Marks.none count).mark start).2.has m = ((Marks.none v.methodCount).mark start).2.has m
    rw [Marks.has_mark, Marks.has_mark, Marks.has_none, Marks.has_none]
  | succ n ih =>
    rw [afterRounds, afterRounds, Function.iterate_succ_apply', Function.iterate_succ_apply']
    exact ih.round

/-- There is a first round after which the level is empty, and by then the search has asked all its
questions. -/
theorem exists_afterRounds (v : ProgramView) (start : MethodId)
    (fin : FinitelyCalled v.callers start) :
    ∃ n, (∀ k < n, (v.afterRounds start k).frontier ≠ []) ∧
      (v.afterRounds start n).frontier = [] ∧
      (v.afterRounds start n).asked = v.search start fin :=
  RootSearch.exists_rounds fin ((Marks.none v.methodCount).mark start).2 [start] _ []
    (List.cons_ne_nil _ _)

/-- Whatever number of methods is expected, the search asks the same questions in the same order:
both searches end with the first empty level, which is the same round for both. -/
theorem search_methodCount (v : ProgramView) (count : Nat) (start : MethodId)
    (fin : FinitelyCalled v.callers start) :
    { v with methodCount := count }.search start fin = v.search start fin := by
  obtain ⟨n, hbefore, hempty, hasked⟩ := exists_afterRounds v start fin
  obtain ⟨n', hbefore', hempty', hasked'⟩ :=
    exists_afterRounds { v with methodCount := count } start fin
  -- the searches stand alike, so a level that is empty for one is empty for the other
  have hle : n ≤ n' := by
    by_contra hlt
    exact hbefore n' (by omega) (by rw [← (v.alike_afterRounds count start n').frontier, hempty'])
  have hge : n' ≤ n := by
    by_contra hlt
    exact hbefore' n (by omega) (by rw [(v.alike_afterRounds count start n).frontier, hempty])
  have heq : n' = n := by omega
  rw [← hasked', heq, (v.alike_afterRounds count start n).asked, hasked]

/-- **The row of marks is a set, and its first length a hint.**  Whatever the first length and
whatever numbers were marked, the row holds these numbers and no others, and the next number is
marked exactly: it is answered whether it is new, its place is there, and no mark is lost.  The
row is never longer than a limit for the first length and for the numbers.  The row of a search is
always such a row, and two views that differ in the number of methods to expect have the same root
callers in the same order, for every method that is finitely called. -/
theorem mark_row_faithful :
    (∀ (size : Nat) (ids : List MethodId),
      (∀ id, (Marks.rowAfter size ids).has id = true ↔ id ∈ ids) ∧
      (∀ id, (Marks.rowAfter size ids).MarksExactly ids id) ∧
      ∀ limit, (Marks.rowAfter size ids).flags.size ≤ limit ↔
        size ≤ limit ∧ ∀ id ∈ ids, id + 1 ≤ limit) ∧
    (∀ (v : ProgramView) (start : MethodId) (n : Nat),
      (v.afterRounds start n).marks = Marks.rowAfter v.methodCount
        (start :: (v.afterRounds start n).asked.flatMap Expansion.callers)) ∧
    ∀ (v : ProgramView) (count : Nat) (start : MethodId) (fin : FinitelyCalled v.callers start),
      { v with methodCount := count }.rootCallers start fin = v.rootCallers start fin := by
  refine ⟨fun size ids => ?_, marks_afterRounds, fun v count start fin => ?_⟩
  · have hrow := Marks.has_rowAfter size ids
    exact ⟨hrow, Marks.marksExactly hrow, Marks.size_rowAfter_le_iff size ids⟩
  · rw [rootCallers, rootCallers, search_methodCount]

end ProgramView

/-- A row for two methods holds two marks after three numbers, of which one is beyond it and comes
twice; the knot has the same root callers if no methods or a hundred are expected. -/
theorem mark_row_faithful_knot :
    (Marks.rowAfter 2 [5, 0, 5]).has 5 = true ∧ (Marks.rowAfter 2 [5, 0, 5]).has 1 = false ∧
    ((Marks.rowAfter 2 [5, 0]).mark 5).1 = false ∧ ((Marks.rowAfter 2 [5, 0]).mark 1).1 = true ∧
    (Marks.rowAfter 2 [5, 0, 5]).flags.size ≤ 6 ∧
    FinitelyCalled knot.view.callers 0 ∧
    { knot.view with methodCount := 0 }.rootCallers 0 (knot.callersFinite 0) =
      { knot.view with methodCount := 100 }.rootCallers 0 (knot.callersFinite 0) := by
  obtain ⟨hrows, -, hroots⟩ := ProgramView.mark_row_faithful
  obtain ⟨hmarked, -, hsize⟩ := hrows 2 [5, 0, 5]
  obtain ⟨-, hexactly, -⟩ := hrows 2 [5, 0]
  refine ⟨(hmarked 5).2 (by decide), ?_, ?_, (hexactly 1).answer.2 (by decide),
    (hsize 6).2 (by decide), knot.callersFinite 0, ?_⟩
  · rw [Bool.eq_false_iff, ne_eq, hmarked]
    decide
  · rw [Bool.eq_false_iff, ne_eq, (hexactly 5).answer]
    decide
  · exact (hroots knot.view 0 0 _).trans (hroots knot.view 100 0 _).symm

end KeywordAudit
