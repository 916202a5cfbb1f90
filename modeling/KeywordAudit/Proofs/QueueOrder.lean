import Mathlib.Data.Finset.Insert
import Mathlib.Data.List.Forall2
import Mathlib.Data.Nat.Find
import Mathlib.Logic.Function.Iterate
import Mathlib.Order.Bounds.Basic
import KeywordAudit.Proofs.RootSearch

/-!
# The order in which root callers are found

The search for root callers goes level by level and marks methods as it discovers them.  The plain
breadth-first search has one queue: the method that has waited longest is removed, and those of
its callers that were not seen before line up behind all others.  The two visit the methods in the
same order.  While a level is worked off, the queue holds what is left of it, followed by the part
of the next level that is known so far; so each level takes as many steps of the queue as it has
methods.

Levels are distances: a method is on the level of the number of calls in the shortest chain from it
to the start.  So the root callers are listed by growing distance.
-/

namespace KeywordAudit

/-! ## A search with one queue -/

/-- A breadth-first search with one queue: the methods that were seen, those that wait, and those
that were removed from the queue, in order. -/
structure QueueSearch where
  seen : Finset MethodId
  queue : List MethodId
  removed : List MethodId

namespace QueueSearch

/-- In the beginning only the start was seen, and it waits. -/
def initial (start : MethodId) : QueueSearch := ⟨{start}, [start], []⟩

/-- A method that was not seen before lines up. -/
def discover (s : QueueSearch) (c : MethodId) : QueueSearch :=
  if c ∈ s.seen then s else { s with seen := insert c s.seen, queue := s.queue ++ [c] }

/-- Removes the method that has waited longest and discovers its callers, in order.  With an empty
queue nothing happens. -/
def step (callers : MethodId → List MethodId) (s : QueueSearch) : QueueSearch :=
  match s.queue with
  | [] => s
  | m :: queue => (callers m).foldl discover { s with queue := queue, removed := s.removed ++ [m] }

/-- The search from a method after a number of steps. -/
def run (callers : MethodId → List MethodId) (start : MethodId) (n : Nat) : QueueSearch :=
  (step callers)^[n] (initial start)

variable {callers : MethodId → List MethodId}

/-- A search with an empty queue is over. -/
theorem iterate_step_of_empty {s : QueueSearch} (h : s.queue = []) (n : Nat) :
    (step callers)^[n] s = s := by
  refine Function.iterate_fixed ?_ n
  rw [step, h]

/-- All runs that have emptied the queue have come to the same end. -/
theorem run_unique {start : MethodId} {m n : Nat} (hm : (run callers start m).queue = [])
    (hn : (run callers start n).queue = []) : run callers start m = run callers start n := by
  have hmn : run callers start (n + m) = run callers start m := by
    rw [run, Function.iterate_add_apply]
    exact iterate_step_of_empty hm n
  have hnm : run callers start (m + n) = run callers start n := by
    rw [run, Function.iterate_add_apply]
    exact iterate_step_of_empty hn m
  rw [← hmn, ← hnm, Nat.add_comm]

/-! ## A level of the search by levels -/

/-- What was seen is what is marked. -/
def Agrees (seen : Finset MethodId) (marks : Marks) : Prop :=
  ∀ m, m ∈ seen ↔ marks.has m = true

/-- Discovering methods is marking them: those that count as new line up. -/
theorem foldl_discover {s : QueueSearch} {marks : Marks} (h : Agrees s.seen marks)
    (cs : List MethodId) :
    ∃ seen, cs.foldl discover s = ⟨seen, s.queue ++ (RootSearch.markAll marks cs).2, s.removed⟩ ∧
      Agrees seen (RootSearch.markAll marks cs).1 := by
  induction cs generalizing s marks with
  | nil =>
    refine ⟨s.seen, ?_, h⟩
    rw [RootSearch.markAll, List.append_nil]
    rfl
  | cons c cs ih =>
    rw [List.foldl_cons, RootSearch.markAll]
    simp only [Marks.fst_mark]
    cases hc : marks.has c with
    | true =>
      -- marking a marked method changes no answer
      have hseen : discover s c = s := if_pos ((h c).2 hc)
      have hagrees : Agrees s.seen (marks.mark c).2 := by
        intro m
        rw [Marks.has_mark, Bool.or_eq_true, decide_eq_true_eq, h m]
        constructor
        · exact .inr
        · rintro (rfl | hm)
          · exact hc
          · exact hm
      rw [hseen]
      exact ih hagrees
    | false =>
      have hunseen :
          discover s c = { s with seen := insert c s.seen, queue := s.queue ++ [c] } := by
        refine if_neg fun hmem => ?_
        rw [(h c).1 hmem] at hc
        exact absurd hc (by decide)
      have hagrees : Agrees (insert c s.seen) (marks.mark c).2 := by
        intro m
        rw [Marks.has_mark, Bool.or_eq_true, decide_eq_true_eq, Finset.mem_insert, h m]
      obtain ⟨seen, heq, hseen⟩ := ih (s := discover s c) (by rw [hunseen]; exact hagrees)
      refine ⟨seen, ?_, hseen⟩
      rw [heq, hunseen]
      simp only [List.append_assoc, List.singleton_append, Bool.not_false, if_true]

/-- As many steps as a level has methods remove the level from the front of the queue and line up
the next one at its end. -/
theorem iterate_step_level (callers : MethodId → List MethodId) {s : QueueSearch} {marks : Marks}
    (h : Agrees s.seen marks) (ms waiting : List MethodId) (hqueue : s.queue = ms ++ waiting) :
    ∃ seen, (step callers)^[ms.length] s =
        ⟨seen, waiting ++ (RootSearch.expand callers marks ms).next, s.removed ++ ms⟩ ∧
      Agrees seen (RootSearch.expand callers marks ms).marks := by
  induction ms generalizing s marks waiting with
  | nil =>
    refine ⟨s.seen, ?_, h⟩
    rw [RootSearch.expand, List.append_nil, List.append_nil, ← List.nil_append waiting, ← hqueue]
    rfl
  | cons m ms ih =>
    -- one step removes `m`; its new callers wait behind the rest of the level
    obtain ⟨seen, hstep, hseen⟩ := foldl_discover
      (s := { s with queue := ms ++ waiting, removed := s.removed ++ [m] }) h (callers m)
    have hone : step callers s = ⟨seen, ms ++ waiting ++ (RootSearch.markAll marks (callers m)).2,
        s.removed ++ [m]⟩ := by
      rw [step, hqueue]
      exact hstep
    obtain ⟨seen', hrest, hseen'⟩ := ih (s := step callers s) (by rw [hone]; exact hseen)
      (waiting ++ (RootSearch.markAll marks (callers m)).2)
      (by rw [hone, List.append_assoc])
    refine ⟨seen', ?_, hseen'⟩
    rw [List.length_cons, Function.iterate_succ_apply, hrest, hone, RootSearch.expand,
      List.append_assoc, List.append_assoc, List.singleton_append]

/-- From a queue that holds one level, the search by queue comes to an end, and by then it has
removed the methods that the search by levels asks for. -/
theorem exists_iterate_levels {start : MethodId} {fin : FinitelyCalled callers start}
    {marks : Marks} {frontier : List MethodId}
    {inside : ∀ m ∈ frontier, CallChain callers start m} :
    ∀ s : QueueSearch, Agrees s.seen marks → s.queue = frontier →
      ∃ n, ((step callers)^[n] s).queue = [] ∧ ((step callers)^[n] s).removed =
        s.removed ++ (RootSearch.levels callers start fin marks frontier inside).map
          Expansion.method := by
  fun_induction RootSearch.levels callers start fin marks frontier inside with
  | case1 marks frontier inside level hdone =>
    intro s hagrees hqueue
    obtain ⟨seen, hlevel, -⟩ :=
      iterate_step_level callers hagrees frontier [] (by rw [hqueue, List.append_nil])
    refine ⟨frontier.length, ?_, ?_⟩
    · rw [hlevel]
      exact hdone
    · rw [hlevel, RootSearch.map_method_expand]
  | case2 marks frontier inside level hmore ih =>
    intro s hagrees hqueue
    obtain ⟨seen, hlevel, hseen⟩ :=
      iterate_step_level callers hagrees frontier [] (by rw [hqueue, List.append_nil])
    obtain ⟨n, hempty, hremoved⟩ := ih ((step callers)^[frontier.length] s)
      (by rw [hlevel]; exact hseen) (by rw [hlevel]; rfl)
    rw [← Function.iterate_add_apply] at hempty hremoved
    refine ⟨n + frontier.length, hempty, ?_⟩
    rw [hremoved, hlevel, List.map_append, RootSearch.map_method_expand, List.append_assoc]

end QueueSearch

/-! ## Distances -/

/-- `CallsIn callers goal n m` says that a chain of `n` calls leads from `m` to `goal`. -/
inductive CallsIn (callers : MethodId → List MethodId) (goal : MethodId) :
    Nat → MethodId → Prop where
  | here : CallsIn callers goal 0 goal
  | call {n : Nat} {m c : MethodId} :
    CallsIn callers goal n m → c ∈ callers m → CallsIn callers goal (n + 1) c

/-- The shortest chain of calls from a method to the goal has the given length. -/
def IsDistance (callers : MethodId → List MethodId) (goal m : MethodId) (d : Nat) : Prop :=
  IsLeast {n | CallsIn callers goal n m} d

variable {callers : MethodId → List MethodId} {goal : MethodId}

theorem callChain_iff_exists_callsIn {m : MethodId} :
    CallChain callers goal m ↔ ∃ n, CallsIn callers goal n m := by
  constructor
  · intro h
    induction h with
    | here => exact ⟨0, .here⟩
    | call _ hc ih =>
      obtain ⟨n, hn⟩ := ih
      exact ⟨n + 1, .call hn hc⟩
  · rintro ⟨n, hn⟩
    induction hn with
    | here => exact .here
    | call _ hc ih => exact .call ih hc

/-- A method that reaches the goal has a distance from it. -/
theorem exists_isDistance {m : MethodId} (h : CallChain callers goal m) :
    ∃ d, IsDistance callers goal m d := by
  classical
  obtain hn := callChain_iff_exists_callsIn.1 h
  exact ⟨Nat.find hn, Nat.find_spec hn, fun k hk => Nat.find_min' hn hk⟩

/-- The last call of a chain of `d + 1` calls leads from a method at distance `d`, unless there is
a shorter chain. -/
theorem CallsIn.last_call {d : Nat} {m : MethodId} (h : CallsIn callers goal (d + 1) m) :
    (∃ n, IsDistance callers goal n d ∧ m ∈ callers n) ∨ ∃ k ≤ d, CallsIn callers goal k m := by
  cases h with
  | @call _ n _ hn hm =>
    by_cases hleast : IsDistance callers goal n d
    · exact .inl ⟨n, hleast, hm⟩
    · -- a shorter chain from `n` makes a shorter chain from `m`
      obtain ⟨e, he⟩ := exists_isDistance (callChain_iff_exists_callsIn.2 ⟨d, hn⟩)
      have hle : e ≤ d := he.2 hn
      have hne : e ≠ d := by
        rintro rfl
        exact hleast he
      exact .inr ⟨e + 1, by omega, .call he.1 hm⟩

namespace RootSearch

/-- A level is that of a distance: it holds the methods at that distance, and the marked methods
are those that are not farther away. -/
structure AtDistance (callers : MethodId → List MethodId) (start : MethodId) (d : Nat)
    (marks : Marks) (frontier : List MethodId) : Prop where
  frontier : ∀ m, m ∈ frontier ↔ IsDistance callers start m d
  marked : ∀ m, marks.has m = true ↔ ∃ k ≤ d, CallsIn callers start k m

variable {start : MethodId}

/-- The level after that of a distance is that of the next distance. -/
theorem AtDistance.expand {d : Nat} {marks : Marks} {frontier : List MethodId}
    (h : AtDistance callers start d marks frontier) :
    AtDistance callers start (d + 1) (expand callers marks frontier).marks
      (expand callers marks frontier).next := by
  refine ⟨fun m => ?_, fun m => ?_⟩
  · rw [mem_next_expand]
    constructor
    · rintro ⟨⟨n, hn, hm⟩, hunmarked⟩
      refine ⟨.call ((h.frontier n).1 hn).1 hm, fun k hk => ?_⟩
      by_contra hlt
      have hmarked : marks.has m = true := (h.marked m).2 ⟨k, by omega, hk⟩
      rw [hunmarked] at hmarked
      exact absurd hmarked (by decide)
    · rintro ⟨hchain, hleast⟩
      have hfar : ¬ ∃ k ≤ d, CallsIn callers start k m := by
        rintro ⟨k, hk, hkm⟩
        have hle : d + 1 ≤ k := hleast hkm
        omega
      obtain ⟨n, hn, hm⟩ := hchain.last_call.resolve_right hfar
      refine ⟨⟨n, (h.frontier n).2 hn, hm⟩, Bool.eq_false_iff.2 fun hmarked => ?_⟩
      exact hfar ((h.marked m).1 hmarked)
  · rw [has_expand]
    constructor
    · rintro (⟨n, hn, hm⟩ | hmarked)
      · exact ⟨d + 1, le_rfl, .call ((h.frontier n).1 hn).1 hm⟩
      · obtain ⟨k, hk, hkm⟩ := (h.marked m).1 hmarked
        exact ⟨k, by omega, hkm⟩
    · rintro ⟨k, hk, hkm⟩
      rcases Nat.lt_or_eq_of_le hk with hlt | rfl
      · exact .inr ((h.marked m).2 ⟨k, by omega, hkm⟩)
      · rcases hkm.last_call with ⟨n, hn, hm⟩ | hnear
        · exact .inl ⟨n, (h.frontier n).2 hn, hm⟩
        · exact .inr ((h.marked m).2 hnear)

/-- When the search begins, the level is that of the start. -/
theorem atDistance_start {size : Nat} :
    AtDistance callers start 0 ((Marks.none size).mark start).2 [start] := by
  have hzero : ∀ m, CallsIn callers start 0 m ↔ m = start := by
    intro m
    constructor
    · intro h
      cases h
      rfl
    · rintro rfl
      exact .here
  refine ⟨fun m => ?_, fun m => ?_⟩
  · rw [List.mem_singleton, ← hzero m]
    exact ⟨fun h => ⟨h, fun k _ => Nat.zero_le k⟩, fun h => h.1⟩
  · rw [Marks.has_mark, Marks.has_none, Bool.or_false, decide_eq_true_eq, ← hzero m]
    constructor
    · intro h
      exact ⟨0, le_rfl, h⟩
    · rintro ⟨k, hk, h⟩
      rw [Nat.le_zero.1 hk] at h
      exact h

/-- A method is not farther from the goal than another one. -/
def NotFarther (callers : MethodId → List MethodId) (goal m n : MethodId) : Prop :=
  ∀ i j, IsDistance callers goal m i → IsDistance callers goal n j → i ≤ j

theorem AtDistance.le_of_mem {d : Nat} {marks : Marks} {frontier : List MethodId}
    (h : AtDistance callers start d marks frontier) {m : MethodId} (hm : m ∈ frontier) (i : Nat)
    (hi : IsDistance callers start m i) : d ≤ i :=
  ((h.frontier m).1 hm).2 hi.1

theorem AtDistance.pairwise_frontier {d : Nat} {marks : Marks} {frontier : List MethodId}
    (h : AtDistance callers start d marks frontier) :
    frontier.Pairwise (NotFarther callers start) := by
  refine List.pairwise_of_forall_mem_list fun m hm n hn i j hi hj => ?_
  have heq : i = d := hi.unique ((h.frontier m).1 hm)
  rw [heq]
  exact h.le_of_mem hn j hj

/-- What is asked for from the level of a distance on is not nearer than that, and each method is
not farther than those after it. -/
theorem pairwise_levels {fin : FinitelyCalled callers start} {marks : Marks}
    {frontier : List MethodId} {inside : ∀ m ∈ frontier, CallChain callers start m} :
    ∀ d, AtDistance callers start d marks frontier →
      (∀ m ∈ (levels callers start fin marks frontier inside).map Expansion.method, ∀ i,
        IsDistance callers start m i → d ≤ i) ∧
      ((levels callers start fin marks frontier inside).map Expansion.method).Pairwise
        (NotFarther callers start) := by
  fun_induction levels callers start fin marks frontier inside with
  | case1 marks frontier inside level hdone =>
    intro d hlevel
    rw [map_method_expand]
    exact ⟨fun m hm => hlevel.le_of_mem hm, hlevel.pairwise_frontier⟩
  | case2 marks frontier inside level hmore ih =>
    intro d hlevel
    obtain ⟨hnear, hlater⟩ := ih (d + 1) hlevel.expand
    rw [List.map_append, map_method_expand]
    refine ⟨fun m hm i hi => ?_, List.pairwise_append.2 ⟨hlevel.pairwise_frontier, hlater, ?_⟩⟩
    · rcases List.mem_append.1 hm with hm | hm
      · exact hlevel.le_of_mem hm i hi
      · have hle : d + 1 ≤ i := hnear m hm i hi
        omega
    · intro m hm n hn i j hi hj
      have hle : d + 1 ≤ j := hnear n hn j hj
      have heq : i = d := hi.unique ((hlevel.frontier m).1 hm)
      omega

/-- Methods that reach the start, each not farther than those after it, have distances that never
decrease. -/
theorem exists_distances {ms : List MethodId} (hreach : ∀ m ∈ ms, CallChain callers start m)
    (hpairs : ms.Pairwise (NotFarther callers start)) :
    ∃ distances : List Nat, List.Forall₂ (IsDistance callers start) ms distances ∧
      distances.Pairwise (· ≤ ·) := by
  have hexists : ∀ m, ∃ d, CallChain callers start m → IsDistance callers start m d := by
    intro m
    by_cases hm : CallChain callers start m
    · obtain ⟨d, hd⟩ := exists_isDistance hm
      exact ⟨d, fun _ => hd⟩
    · exact ⟨0, fun h => absurd h hm⟩
  -- a function on all methods, so that the distances are the image of the list
  choose distance hdistance using hexists
  refine ⟨ms.map distance, ?_, ?_⟩
  · refine List.forall₂_map_right_iff.2 (List.forall₂_same.2 fun m hm => ?_)
    exact hdistance m (hreach m hm)
  · refine List.pairwise_map.2 (hpairs.imp_of_mem fun {m n} hm hn hle => ?_)
    exact hle _ _ (hdistance m (hreach m hm)) (hdistance n (hreach n hn))

end RootSearch

namespace ProgramView

variable {v : ProgramView} {start : MethodId} {fin : FinitelyCalled v.callers start}

/-- The search by queue comes to an end, and by then it has removed the methods that the search by
levels asks for. -/
theorem exists_run (fin : FinitelyCalled v.callers start) :
    ∃ n, (QueueSearch.run v.callers start n).queue = [] ∧
      (QueueSearch.run v.callers start n).removed = (v.search start fin).map Expansion.method := by
  refine QueueSearch.exists_iterate_levels (QueueSearch.initial start) (fun m => ?_) rfl
  rw [Marks.has_mark, Marks.has_none, Bool.or_false, decide_eq_true_eq]
  exact Finset.mem_singleton

/-- The root callers are listed by growing distance. -/
theorem pairwise_rootCallers :
    (v.rootCallers start fin).Pairwise (RootSearch.NotFarther v.callers start) := by
  rw [rootCallers_eq_filter]
  exact (RootSearch.pairwise_levels 0 RootSearch.atDistance_start).2.filter _

/-- **The order of the root callers.**  The breadth-first search with one queue empties its queue,
and whenever it has, the root callers are the methods without callers that it removed, in the order
of removal.  The lengths of the shortest chains of calls from the root callers to the start never
decrease along the list. -/
theorem rootCallers_queue_order (v : ProgramView) (start : MethodId)
    (fin : FinitelyCalled v.callers start) :
    (∃ n, (QueueSearch.run v.callers start n).queue = []) ∧
    (∀ n, (QueueSearch.run v.callers start n).queue = [] → v.rootCallers start fin =
      (QueueSearch.run v.callers start n).removed.filter fun m => (v.callers m).isEmpty) ∧
    ∃ distances : List Nat,
      List.Forall₂ (IsDistance v.callers start) (v.rootCallers start fin) distances ∧
      distances.Pairwise (· ≤ ·) := by
  obtain ⟨n, hempty, hremoved⟩ := exists_run fin
  refine ⟨⟨n, hempty⟩, fun k hk => ?_, ?_⟩
  · rw [QueueSearch.run_unique hk hempty, hremoved]
    exact rootCallers_eq_filter
  · exact RootSearch.exists_distances (fun r hr => (mem_rootCallers.1 hr).2) pairwise_rootCallers

end ProgramView

/-- A method with three callers, of which one has none, one is the method itself, and one is called,
twice, by a method that only an unknown one calls. -/
def ladder : Tables where
  enumeration := [0, 1, 2, 3]
  methods := []
  classes := []
  callers := [(0, [2, 0, 1]), (2, [3, 3, 0]), (3, [2, 7])]
  methodCount := 4

/-- The queue of the ladder is empty after five steps; the near root caller is found before the far
one, although it is the last one to line up on its level. -/
theorem rootCallers_ladder :
    (QueueSearch.run ladder.view.callers 0 5).queue = [] ∧
    (QueueSearch.run ladder.view.callers 0 5).removed = [0, 2, 1, 3, 7] ∧
    ladder.view.rootCallers 0 (ladder.callersFinite 0) = [1, 7] ∧
    ∃ distances : List Nat, List.Forall₂ (IsDistance ladder.view.callers 0) [1, 7] distances ∧
      distances.Pairwise (· ≤ ·) := by
  have hqueue : (QueueSearch.run ladder.view.callers 0 5).queue = [] := by decide
  have hremoved : (QueueSearch.run ladder.view.callers 0 5).removed = [0, 2, 1, 3, 7] := by decide
  obtain ⟨-, hroots, hdistances⟩ :=
    ladder.view.rootCallers_queue_order 0 (ladder.callersFinite 0)
  have hlist : ladder.view.rootCallers 0 (ladder.callersFinite 0) = [1, 7] := by
    rw [hroots 5 hqueue, hremoved]
    decide
  rw [hlist] at hdistances
  exact ⟨hqueue, hremoved, hlist, hdistances⟩

end KeywordAudit
