import Mathlib.Data.List.Chain
import KeywordAudit.Analysis.RootSearch

/-!
# What a search for root callers meets

The search asks for the callers of exactly the methods from which the start is reached, each of
them once.  Two facts about a level carry this through the whole search:

* the methods of the level, and the callers found on it that were not marked before, are asked
  for later on, so nothing that reaches the start is lost to an early mark;
* what is asked for later on was not marked before, so nothing is asked for twice.

Neither needs the numbers to be those of known methods, and cycles, calls of a method to itself
and repeated callers make no difference.
-/

namespace KeywordAudit

/-! ## Chains of calls as lists -/

/-- A chain of calls is a list of methods, each a direct caller of the next, that ends at the
goal. -/
theorem callChain_iff_exists_list {callers : MethodId → List MethodId} {goal m : MethodId} :
    CallChain callers goal m ↔ ∃ rest : List MethodId,
      (m :: rest).getLast? = some goal ∧ (m :: rest).IsChain (fun a b => a ∈ callers b) := by
  constructor
  · intro h
    induction h with
    | here => exact ⟨[], rfl, List.isChain_singleton _⟩
    | @call m c _ hc ih =>
      obtain ⟨rest, hlast, hchain⟩ := ih
      refine ⟨m :: rest, ?_, List.isChain_cons_cons.2 ⟨hc, hchain⟩⟩
      rw [List.getLast?_cons_cons, hlast]
  · rintro ⟨rest, hlast, hchain⟩
    induction rest generalizing m with
    | nil =>
      rw [List.getLast?_singleton, Option.some.injEq] at hlast
      rw [hlast]
      exact .here
    | cons n rest ih =>
      rw [List.getLast?_cons_cons] at hlast
      obtain ⟨hmn, hrest⟩ := List.isChain_cons_cons.1 hchain
      exact .call (ih hlast hrest) hmn

namespace RootSearch

variable {callers : MethodId → List MethodId}

/-! ## One level -/

/-- A method counts as new once. -/
theorem nodup_markAll (marks : Marks) (cs : List MethodId) : (markAll marks cs).2.Nodup := by
  induction cs generalizing marks with
  | nil => exact List.nodup_nil
  | cons c cs ih =>
    rw [markAll]
    show (if (marks.mark c).1 = true then c :: (markAll (marks.mark c).2 cs).2
      else (markAll (marks.mark c).2 cs).2).Nodup
    split
    · refine List.nodup_cons.2 ⟨?_, ih _⟩
      intro hc
      have hunmarked := (mem_markAll.1 hc).2
      rw [Marks.has_mark, decide_eq_true rfl, Bool.true_or] at hunmarked
      exact absurd hunmarked (by decide)
    · exact ih _

/-- The next level names each method once. -/
theorem nodup_next_expand (marks : Marks) (ms : List MethodId) :
    (expand callers marks ms).next.Nodup := by
  induction ms generalizing marks with
  | nil => exact List.nodup_nil
  | cons n ms ih =>
    rw [expand]
    refine List.nodup_append.2 ⟨nodup_markAll marks (callers n), ih _, ?_⟩
    intro a ha b hb hab
    subst hab
    -- a caller of the first method is marked when the others are looked at
    have hmarked : (markAll marks (callers n)).1.has a = true :=
      has_markAll.2 (.inl (mem_markAll.1 ha).1)
    rw [(mem_next_expand.1 hb).2] at hmarked
    exact absurd hmarked (by decide)

/-- A level asks for its methods in order and is told their callers. -/
theorem expansions_expand (marks : Marks) (ms : List MethodId) :
    (expand callers marks ms).expansions = ms.map fun m => ⟨m, callers m⟩ := by
  induction ms generalizing marks with
  | nil => rfl
  | cons n ms ih =>
    rw [expand, List.map_cons]
    exact congrArg _ (ih _)

theorem mem_expansions_expand {marks : Marks} {ms : List MethodId} {e : Expansion} :
    e ∈ (expand callers marks ms).expansions ↔ e.method ∈ ms ∧ e.callers = callers e.method := by
  rw [expansions_expand, List.mem_map]
  constructor
  · rintro ⟨m, hm, rfl⟩
    exact ⟨hm, rfl⟩
  · rintro ⟨hm, hcallers⟩
    refine ⟨e.method, hm, ?_⟩
    rw [← hcallers]

/-- The methods that a level asks for are its own. -/
theorem map_method_expand (marks : Marks) (ms : List MethodId) :
    (expand callers marks ms).expansions.map Expansion.method = ms := by
  rw [expansions_expand, List.map_map]
  exact List.map_id ms

/-! ## All levels -/

section Levels

variable {start : MethodId} {fin : FinitelyCalled callers start}

/-- Every question of the search is about a method that reaches the start, and is answered by the
callers of that method. -/
theorem callChain_of_mem_levels {marks : Marks} {frontier : List MethodId}
    {inside : ∀ m ∈ frontier, CallChain callers start m} {e : Expansion}
    (he : e ∈ levels callers start fin marks frontier inside) :
    CallChain callers start e.method ∧ e.callers = callers e.method := by
  fun_induction levels callers start fin marks frontier inside with
  | case1 marks frontier inside level hdone =>
    obtain ⟨hm, hcallers⟩ := mem_expansions_expand.1 he
    exact ⟨inside _ hm, hcallers⟩
  | case2 marks frontier inside level hmore ih =>
    rcases List.mem_append.1 he with he | he
    · obtain ⟨hm, hcallers⟩ := mem_expansions_expand.1 he
      exact ⟨inside _ hm, hcallers⟩
    · exact ih he

/-- The methods of a level are asked for. -/
theorem mem_levels_of_mem_frontier (marks : Marks) {frontier : List MethodId}
    (inside : ∀ m ∈ frontier, CallChain callers start m) {m : MethodId} (hm : m ∈ frontier) :
    ⟨m, callers m⟩ ∈ levels callers start fin marks frontier inside := by
  have hexp : ⟨m, callers m⟩ ∈ (expand callers marks frontier).expansions :=
    mem_expansions_expand.2 ⟨hm, rfl⟩
  rw [levels]
  split
  · exact hexp
  · exact List.mem_append_left _ hexp

/-- The callers of a method that was asked for were marked when the level began, or are asked for
later on. -/
theorem mem_levels_of_caller {marks : Marks} {frontier : List MethodId}
    {inside : ∀ m ∈ frontier, CallChain callers start m} {e : Expansion} {c : MethodId}
    (he : e ∈ levels callers start fin marks frontier inside) (hc : c ∈ callers e.method) :
    marks.has c = true ∨ ⟨c, callers c⟩ ∈ levels callers start fin marks frontier inside := by
  fun_induction levels callers start fin marks frontier inside with
  | case1 marks frontier inside level hdone =>
    have hm := (mem_expansions_expand.1 he).1
    cases hmarked : marks.has c with
    | true => exact .inl rfl
    | false =>
      -- an unmarked caller would be on the next level, which is empty
      have hnext : c ∈ level.next := mem_next_expand.2 ⟨⟨e.method, hm, hc⟩, hmarked⟩
      rw [hdone] at hnext
      exact absurd hnext List.not_mem_nil
  | case2 marks frontier inside level hmore ih =>
    -- a caller of this level is on the next one, unless it was marked before
    have hlevel : ∀ m ∈ frontier, c ∈ callers m → marks.has c = true ∨
        ⟨c, callers c⟩ ∈ levels callers start fin level.marks level.next
          (fun _ hm => callChain_of_mem_next inside hm) := by
      intro m hm hcm
      cases hmarked : marks.has c with
      | true => exact .inl rfl
      | false =>
        exact .inr (mem_levels_of_mem_frontier _ _ (mem_next_expand.2 ⟨⟨m, hm, hcm⟩, hmarked⟩))
    have hlater : marks.has c = true ∨
        ⟨c, callers c⟩ ∈ levels callers start fin level.marks level.next
          (fun _ hm => callChain_of_mem_next inside hm) := by
      rcases List.mem_append.1 he with he | he
      · exact hlevel e.method (mem_expansions_expand.1 he).1 hc
      · rcases ih he with hmarked | hmem
        · rcases has_expand.1 hmarked with ⟨m, hm, hcm⟩ | hmarked
          · exact hlevel m hm hcm
          · exact .inl hmarked
        · exact .inr hmem
    exact hlater.imp_right (List.mem_append_right _)

/-- What is asked for from a level on is on that level or was not marked when it began. -/
theorem unmarked_of_mem_levels {marks : Marks} {frontier : List MethodId}
    {inside : ∀ m ∈ frontier, CallChain callers start m} {e : Expansion}
    (he : e ∈ levels callers start fin marks frontier inside) :
    e.method ∈ frontier ∨ marks.has e.method = false := by
  fun_induction levels callers start fin marks frontier inside with
  | case1 marks frontier inside level hdone =>
    exact .inl (mem_expansions_expand.1 he).1
  | case2 marks frontier inside level hmore ih =>
    rcases List.mem_append.1 he with he | he
    · exact .inl (mem_expansions_expand.1 he).1
    · rcases ih he with hnext | hunmarked
      · exact .inr (mem_next_expand.1 hnext).2
      · -- marks are never taken back
        refine .inr (Bool.eq_false_iff.2 fun hmarked => ?_)
        rw [has_expand.2 (.inr hmarked)] at hunmarked
        exact absurd hunmarked (by decide)

/-- From a level of distinct, marked methods on, no method is asked for twice. -/
theorem nodup_levels {marks : Marks} {frontier : List MethodId}
    {inside : ∀ m ∈ frontier, CallChain callers start m} (hnodup : frontier.Nodup)
    (hmarked : ∀ m ∈ frontier, marks.has m = true) :
    ((levels callers start fin marks frontier inside).map Expansion.method).Nodup := by
  fun_induction levels callers start fin marks frontier inside with
  | case1 marks frontier inside level hdone =>
    rw [map_method_expand]
    exact hnodup
  | case2 marks frontier inside level hmore ih =>
    have hnextMarked : ∀ m ∈ level.next, level.marks.has m = true := by
      intro m hm
      exact has_expand.2 (.inl (mem_next_expand.1 hm).1)
    rw [List.map_append, map_method_expand]
    refine List.nodup_append.2 ⟨hnodup, ih (nodup_next_expand _ _) hnextMarked, ?_⟩
    intro a ha b hb hab
    subst hab
    obtain ⟨e, he, rfl⟩ := List.mem_map.1 hb
    have hbefore : marks.has e.method = true := hmarked _ ha
    rcases unmarked_of_mem_levels he with hnext | hunmarked
    · rw [(mem_next_expand.1 hnext).2] at hbefore
      exact absurd hbefore (by decide)
    · rw [has_expand.2 (.inr hbefore)] at hunmarked
      exact absurd hunmarked (by decide)

end Levels
end RootSearch

/-! ## The whole search -/

namespace ProgramView

variable {v : ProgramView} {start : MethodId} {fin : FinitelyCalled v.callers start}

/-- The search asks for the methods that reach the start and for no others, and is told their
callers. -/
theorem mem_search {e : Expansion} :
    e ∈ v.search start fin ↔
      CallChain v.callers start e.method ∧ e.callers = v.callers e.method := by
  constructor
  · intro he
    exact RootSearch.callChain_of_mem_levels he
  · rintro ⟨hchain, hcallers⟩
    -- only the start is marked when the search begins, and the start is asked for
    have hclosed : ∀ m, CallChain v.callers start m → ⟨m, v.callers m⟩ ∈ v.search start fin := by
      intro m hm
      induction hm with
      | here => exact RootSearch.mem_levels_of_mem_frontier _ _ (List.mem_singleton.2 rfl)
      | @call m c _ hc ih =>
        rcases RootSearch.mem_levels_of_caller ih hc with hmarked | hmem
        · rw [Marks.has_mark, Marks.has_none, Bool.or_false, decide_eq_true_eq] at hmarked
          rw [hmarked]
          exact RootSearch.mem_levels_of_mem_frontier _ _ (List.mem_singleton.2 rfl)
        · exact hmem
    have he := hclosed e.method hchain
    rw [← hcallers] at he
    exact he

/-- The root callers are the methods without callers among those asked for. -/
theorem rootCallers_eq_filter : v.rootCallers start fin =
    ((v.search start fin).map Expansion.method).filter fun m => (v.callers m).isEmpty := by
  rw [rootCallers, List.filter_map]
  refine congrArg _ (List.filter_congr fun e he => ?_)
  rw [Function.comp_apply, (mem_search.1 he).2]

/-- The search asks for no method twice. -/
theorem nodup_search : ((v.search start fin).map Expansion.method).Nodup := by
  refine RootSearch.nodup_levels (List.pairwise_singleton _ _) ?_
  intro m hm
  rw [Marks.has_mark, decide_eq_true (List.mem_singleton.1 hm), Bool.true_or]

/-- The root callers are the methods without callers that reach the start. -/
theorem mem_rootCallers {r : MethodId} :
    r ∈ v.rootCallers start fin ↔ v.callers r = [] ∧ CallChain v.callers start r := by
  rw [rootCallers, List.mem_map]
  constructor
  · rintro ⟨e, he, rfl⟩
    obtain ⟨hmem, hempty⟩ := List.mem_filter.1 he
    obtain ⟨hchain, hcallers⟩ := mem_search.1 hmem
    rw [hcallers, List.isEmpty_iff] at hempty
    exact ⟨hempty, hchain⟩
  · rintro ⟨hempty, hchain⟩
    refine ⟨⟨r, v.callers r⟩, List.mem_filter.2 ⟨mem_search.2 ⟨hchain, rfl⟩, ?_⟩, rfl⟩
    exact List.isEmpty_iff.2 hempty

/-- No root caller is found twice. -/
theorem nodup_rootCallers : (v.rootCallers start fin).Nodup :=
  (List.Sublist.map Expansion.method List.filter_sublist).nodup nodup_search

/-- **The root callers of a method**: exactly the methods without callers from which a chain of
calls leads to it, each of them once. -/
theorem rootCallers_exact (v : ProgramView) (start : MethodId)
    (fin : FinitelyCalled v.callers start) :
    (∀ r, r ∈ v.rootCallers start fin ↔ v.callers r = [] ∧ ∃ rest : List MethodId,
      (r :: rest).getLast? = some start ∧ (r :: rest).IsChain (fun a b => a ∈ v.callers b)) ∧
    (v.rootCallers start fin).Nodup := by
  refine ⟨fun r => ?_, nodup_rootCallers⟩
  rw [mem_rootCallers, callChain_iff_exists_list]

end ProgramView

/-- Two methods that call each other and a third that also calls itself, with repeated callers
and with callers beyond the number of methods to expect. -/
def knot : Tables where
  enumeration := [0]
  methods := []
  classes := []
  callers := [(0, [1, 2, 1, 0]), (1, [2, 9]), (2, [1, 3])]
  methodCount := 2

/-- The knot is entered from the two unknown methods only. -/
theorem rootCallers_knot :
    3 ∈ knot.view.rootCallers 0 (knot.callersFinite 0) ∧
    9 ∈ knot.view.rootCallers 0 (knot.callersFinite 0) ∧
    2 ∉ knot.view.rootCallers 0 (knot.callersFinite 0) ∧
    (knot.view.rootCallers 0 (knot.callersFinite 0)).Nodup := by
  obtain ⟨hmem, hnodup⟩ := knot.view.rootCallers_exact 0 (knot.callersFinite 0)
  refine ⟨(hmem 3).2 ⟨rfl, [2, 0], rfl, by decide⟩, (hmem 9).2 ⟨rfl, [1, 0], rfl, by decide⟩, ?_,
    hnodup⟩
  intro h
  exact absurd ((hmem 2).1 h).1 (by decide)

end KeywordAudit
