import Mathlib.Data.List.Nodup
import Mathlib.Logic.Function.Iterate
import KeywordAudit.Proofs.RootSearch

/-!
# The rounds of a search

A search for root callers is a loop: as long as the level is not empty, a round asks for the
callers of each of its methods and goes on with those that were not marked.  Here the loop is run
round by round, without a promise that it ends.

Nothing bounds the numbers that a search meets, since the row of marks grows with them; the loop
ends because every round but the last one marks a method that reaches the start, and there are
finitely many of those.  Over all rounds together each of them is asked for once.  Nothing else is
asked for: whatever else the callers of other methods were, each round would be the same.
-/

namespace KeywordAudit

namespace RootSearch

/-- Where the loop stands between two rounds: the marks, the level that comes next, and the
questions asked so far. -/
structure Standing where
  marks : Marks
  frontier : List MethodId
  asked : List Expansion

/-- One round of the loop. -/
def round (callers : MethodId → List MethodId) (s : Standing) : Standing :=
  let level := expand callers s.marks s.frontier
  ⟨level.marks, level.next, s.asked ++ level.expansions⟩

variable {callers : MethodId → List MethodId} {start : MethodId}

/-- From a level that is not empty, the loop comes to an empty level, and by then it has asked
what the search from that level on asks. -/
theorem exists_rounds (fin : FinitelyCalled callers start) (marks : Marks)
    (frontier : List MethodId) (inside : ∀ m ∈ frontier, CallChain callers start m)
    (asked : List Expansion) (hne : frontier ≠ []) :
    ∃ n, (∀ k < n, ((round callers)^[k] ⟨marks, frontier, asked⟩).frontier ≠ []) ∧
      ((round callers)^[n] ⟨marks, frontier, asked⟩).frontier = [] ∧
      ((round callers)^[n] ⟨marks, frontier, asked⟩).asked =
        asked ++ levels callers start fin marks frontier inside := by
  fun_induction levels callers start fin marks frontier inside generalizing asked with
  | case1 marks frontier inside level hdone =>
    refine ⟨1, fun k hk => ?_, hdone, rfl⟩
    have hzero : k = 0 := by omega
    rw [hzero]
    exact hne
  | case2 marks frontier inside level hmore ih =>
    -- one round is spent on this level, and the others are those from the next level on
    obtain ⟨n, hbefore, hempty, hasked⟩ := ih (asked ++ level.expansions) hmore
    refine ⟨n + 1, fun k hk => ?_, hempty, ?_⟩
    · cases k with
      | zero => exact hne
      | succ k => exact hbefore k (by omega)
    · rw [← List.append_assoc]
      exact hasked

/-- A level is the same for callers that agree on its methods. -/
theorem expand_congr {other : MethodId → List MethodId} {marks : Marks} {ms : List MethodId}
    (h : ∀ m ∈ ms, other m = callers m) : expand other marks ms = expand callers marks ms := by
  induction ms generalizing marks with
  | nil => rfl
  | cons m ms ih =>
    rw [expand, expand, h m List.mem_cons_self]
    simp only [ih fun k hk => h k (List.mem_cons_of_mem m hk)]

/-- After any number of rounds, the level holds methods that reach the start. -/
theorem callChain_of_mem_round {s : Standing} (inside : ∀ m ∈ s.frontier, CallChain callers start m)
    (n : Nat) : ∀ m ∈ ((round callers)^[n] s).frontier, CallChain callers start m := by
  induction n generalizing s with
  | zero => exact inside
  | succ n ih => exact ih fun m hm => callChain_of_mem_next inside hm

/-- The rounds are the same for callers that agree on the methods that reach the start. -/
theorem rounds_congr {other : MethodId → List MethodId} {s : Standing}
    (inside : ∀ m ∈ s.frontier, CallChain callers start m)
    (h : ∀ m, CallChain callers start m → other m = callers m) (n : Nat) :
    (round other)^[n] s = (round callers)^[n] s := by
  induction n with
  | zero => rfl
  | succ n ih =>
    have hlevel := callChain_of_mem_round inside n
    rw [Function.iterate_succ_apply', Function.iterate_succ_apply', ih, round, round,
      expand_congr fun m hm => h m (hlevel m hm)]

end RootSearch

namespace ProgramView

/-- Where the search from a method stands after a number of rounds.  Before the first one, the
method is marked and alone on its level. -/
def afterRounds (v : ProgramView) (start : MethodId) (n : Nat) : RootSearch.Standing :=
  (RootSearch.round v.callers)^[n] ⟨((Marks.none v.methodCount).mark start).2, [start], []⟩

/-- **The search ends, and asks once.**  In a finished program every method is finitely called.
In any view, from any method that is finitely called, there is a first round after which the level
is empty.  By then the search has asked exactly once for the callers of each method that reaches
the start, and never for those of another one, and the root callers are the methods asked for that
have no callers.  Had the callers of the others been different, every round would have been the
same. -/
theorem search_ends_asking_once :
    (∀ (p : Program) (start : MethodId), FinitelyCalled p.view.callers start) ∧
    ∀ (v : ProgramView) (start : MethodId) (fin : FinitelyCalled v.callers start),
      ∃ n, (∀ k < n, (v.afterRounds start k).frontier ≠ []) ∧
        (v.afterRounds start n).frontier = [] ∧
        (v.afterRounds start n).asked = v.search start fin ∧
        v.rootCallers start fin = ((v.afterRounds start n).asked.map Expansion.method).filter
          (fun m => (v.callers m).isEmpty) ∧
        (∀ m, CallChain v.callers start m →
          ((v.afterRounds start n).asked.map Expansion.method).count m = 1) ∧
        (∀ m, ¬ CallChain v.callers start m →
          ((v.afterRounds start n).asked.map Expansion.method).count m = 0) ∧
        ∀ other : MethodId → List MethodId,
          (∀ m, CallChain v.callers start m → other m = v.callers m) →
          ∀ k, { v with callers := other }.afterRounds start k = v.afterRounds start k := by
  refine ⟨Program.callersFinite, fun v start fin => ?_⟩
  have inside : ∀ m ∈ [start], CallChain v.callers start m := by
    intro m hm
    rw [List.mem_singleton.1 hm]
    exact .here
  obtain ⟨n, hbefore, hempty, hasked⟩ := RootSearch.exists_rounds fin
    ((Marks.none v.methodCount).mark start).2 [start] inside [] (List.cons_ne_nil _ _)
  have hsearch : (v.afterRounds start n).asked = v.search start fin := hasked
  refine ⟨n, hbefore, hempty, hsearch, ?_, fun m hm => ?_, fun m hm => ?_, fun other hother k => ?_⟩
  · rw [hsearch]
    exact rootCallers_eq_filter
  · have hmem : m ∈ (v.search start fin).map Expansion.method :=
      List.mem_map.2 ⟨⟨m, v.callers m⟩, mem_search.2 ⟨hm, rfl⟩, rfl⟩
    rw [hsearch]
    exact List.count_eq_one_of_mem nodup_search hmem
  · rw [hsearch, List.count_eq_zero]
    intro hmem
    obtain ⟨e, he, rfl⟩ := List.mem_map.1 hmem
    exact hm (mem_search.1 he).1
  · exact RootSearch.rounds_congr inside hother k

end ProgramView

/-- In the knot, both unknown methods are asked for once, and so is the method that calls itself;
a number that occurs nowhere is not asked for. -/
theorem search_ends_knot :
    FinitelyCalled knot.view.callers 0 ∧ CallChain knot.view.callers 0 9 ∧
    ¬ CallChain knot.view.callers 0 5 ∧
    ∃ n, (knot.view.afterRounds 0 n).frontier = [] ∧
      ((knot.view.afterRounds 0 n).asked.map Expansion.method).count 0 = 1 ∧
      ((knot.view.afterRounds 0 n).asked.map Expansion.method).count 9 = 1 ∧
      ((knot.view.afterRounds 0 n).asked.map Expansion.method).count 5 = 0 := by
  have hnine : CallChain knot.view.callers 0 9 :=
    .call (.call .here (by decide : 1 ∈ knot.view.callers 0)) (by decide)
  have hfive : ¬ CallChain knot.view.callers 0 5 := by
    intro h
    cases h with
    | @call m _ _ hc =>
      have hlisted : ∀ e ∈ knot.callers, 5 ∉ e.2 := by decide
      cases hm : knot.callers.lookup m with
      | none => simp [Tables.view, Tables.callersOf, hm] at hc
      | some cs =>
        have hcs : 5 ∈ cs := by simpa [Tables.view, Tables.callersOf, hm] using hc
        obtain ⟨before, after, htable, -⟩ := List.lookup_eq_some_iff.1 hm
        exact hlisted (m, cs) (by simp [htable]) hcs
  obtain ⟨n, -, hempty, -, -, hone, hnone, -⟩ :=
    ProgramView.search_ends_asking_once.2 knot.view 0 (knot.callersFinite 0)
  exact ⟨knot.callersFinite 0, hnine, hfive, n, hempty, hone 0 .here, hone 9 hnine, hnone 5 hfive⟩

end KeywordAudit
