import KeywordAudit.Analysis.Marks
import KeywordAudit.Program.View

/-!
# Searching for root callers

Starting at one method, the search walks from callees to callers, level by level, and asks for
the callers of each method once.  The methods without callers are the root callers.  The search
ends because each further level marks a method that was not marked before and that calls the
start, and the start is finitely called.
-/

namespace KeywordAudit

/-- One question of the search and its answer: a method and its direct callers. -/
structure Expansion where
  method : MethodId
  callers : List MethodId
deriving DecidableEq, Repr

namespace RootSearch

/-! ## One level -/

/-- Marks the methods of a list; returns those that were not marked before, in order. -/
def markAll : Marks → List MethodId → Marks × List MethodId
  | marks, [] => (marks, [])
  | marks, c :: cs =>
    let (fresh, marks) := marks.mark c
    let (marks, rest) := markAll marks cs
    (marks, if fresh then c :: rest else rest)

/-- The outcome of one level: the marks, the questions asked, and the next level. -/
structure Layer where
  marks : Marks
  expansions : List Expansion
  next : List MethodId

/-- Asks for the callers of each method of a level, and marks them. -/
def expand (callers : MethodId → List MethodId) : Marks → List MethodId → Layer
  | marks, [] => ⟨marks, [], []⟩
  | marks, m :: ms =>
    let cs := callers m
    let (marks, fresh) := markAll marks cs
    let level := expand callers marks ms
    ⟨level.marks, ⟨m, cs⟩ :: level.expansions, fresh ++ level.next⟩

/-! ## What a level marks -/

@[simp] theorem has_markAll {marks : Marks} {cs : List MethodId} {m : MethodId} :
    (markAll marks cs).1.has m = true ↔ m ∈ cs ∨ marks.has m = true := by
  induction cs generalizing marks with
  | nil => simp [markAll]
  | cons c cs ih =>
    rw [markAll]
    simp only [ih, Marks.has_mark, Bool.or_eq_true, decide_eq_true_eq, List.mem_cons]
    rw [or_left_comm, or_assoc]

/-- The methods that count as new were not marked before. -/
theorem mem_markAll {marks : Marks} {cs : List MethodId} {m : MethodId} :
    m ∈ (markAll marks cs).2 ↔ m ∈ cs ∧ marks.has m = false := by
  induction cs generalizing marks with
  | nil => simp [markAll]
  | cons c cs ih =>
    have hmem : m ∈ (markAll marks (c :: cs)).2 ↔
        m ∈ (if marks.has c = false then c :: (markAll (marks.mark c).2 cs).2
          else (markAll (marks.mark c).2 cs).2) := by
      simp [markAll]
    rw [hmem]
    by_cases hc : marks.has c = false
    · rw [if_pos hc]
      simp only [List.mem_cons, ih, Marks.has_mark, Bool.or_eq_false_iff,
        decide_eq_false_iff_not]
      constructor
      · rintro (rfl | ⟨h, -, hm⟩)
        · exact ⟨.inl rfl, hc⟩
        · exact ⟨.inr h, hm⟩
      · rintro ⟨h, hm⟩
        by_cases hmc : m = c
        · exact .inl hmc
        · exact .inr ⟨h.resolve_left hmc, hmc, hm⟩
    · rw [if_neg hc]
      simp only [List.mem_cons, ih, Marks.has_mark, Bool.or_eq_false_iff,
        decide_eq_false_iff_not]
      constructor
      · rintro ⟨h, -, hm⟩
        exact ⟨.inr h, hm⟩
      · rintro ⟨rfl | h, hm⟩
        · exact absurd hm hc
        · exact ⟨h, fun hmc => hc (hmc ▸ hm), hm⟩

/-- A level marks the callers of its methods and keeps all marks. -/
theorem has_expand {callers : MethodId → List MethodId} {marks : Marks} {ms : List MethodId}
    {m : MethodId} : (expand callers marks ms).marks.has m = true ↔
      (∃ n ∈ ms, m ∈ callers n) ∨ marks.has m = true := by
  induction ms generalizing marks with
  | nil => simp [expand]
  | cons n ms ih =>
    rw [expand]
    simp only [ih, has_markAll, List.mem_cons]
    constructor
    · rintro (⟨k, hk, hm⟩ | hm | hm)
      · exact .inl ⟨k, .inr hk, hm⟩
      · exact .inl ⟨n, .inl rfl, hm⟩
      · exact .inr hm
    · rintro (⟨k, rfl | hk, hm⟩ | hm)
      · exact .inr (.inl hm)
      · exact .inl ⟨k, hk, hm⟩
      · exact .inr (.inr hm)

/-- The next level holds the callers that were not marked before. -/
theorem mem_next_expand {callers : MethodId → List MethodId} {marks : Marks}
    {ms : List MethodId} {m : MethodId} : m ∈ (expand callers marks ms).next ↔
      (∃ n ∈ ms, m ∈ callers n) ∧ marks.has m = false := by
  induction ms generalizing marks with
  | nil => simp [expand]
  | cons n ms ih =>
    rw [expand]
    simp only [List.mem_append, mem_markAll, ih, ← Bool.not_eq_true, has_markAll, not_or,
      List.mem_cons]
    constructor
    · rintro (⟨h, hm⟩ | ⟨⟨k, hk, h⟩, -, hm⟩)
      · exact ⟨⟨n, .inl rfl, h⟩, hm⟩
      · exact ⟨⟨k, .inr hk, h⟩, hm⟩
    · rintro ⟨⟨k, hk, h⟩, hm⟩
      by_cases hn : m ∈ callers n
      · exact .inl ⟨hn, hm⟩
      · rcases hk with rfl | hk
        · exact absurd h hn
        · exact .inr ⟨⟨k, hk, h⟩, hn, hm⟩

/-! ## The search -/

/-- How many methods of a list are not marked. -/
def unmarked (bound : List MethodId) (marks : Marks) : Nat :=
  bound.countP fun m => !marks.has m

/-- Marking more, and among them a method of the list, leaves fewer unmarked. -/
theorem unmarked_lt {bound : List MethodId} {before after : Marks}
    (hmono : ∀ m, before.has m = true → after.has m = true) {m : MethodId} (hm : m ∈ bound)
    (hbefore : before.has m = false) (hafter : after.has m = true) :
    unmarked bound after < unmarked bound before := by
  induction bound with
  | nil => simp at hm
  | cons n bound ih =>
    have hle : unmarked bound after ≤ unmarked bound before := by
      refine List.countP_mono_left fun k _ hk => ?_
      cases hb : before.has k with
      | false => rfl
      | true => simp [hmono k hb] at hk
    simp only [unmarked, List.countP_cons] at ih hle ⊢
    rcases List.mem_cons.1 hm with rfl | hm
    · simp only [hbefore, hafter, Bool.not_true, Bool.not_false, if_true, Bool.false_eq_true,
        if_false]
      omega
    · have hlt := ih hm
      cases hb : before.has n with
      | false => cases after.has n <;> simp <;> omega
      | true => simp [hmono n hb]; omega

/-- The callers found on a level of callers of the start are callers of the start. -/
theorem callChain_of_mem_next {callers : MethodId → List MethodId} {start : MethodId}
    {marks : Marks} {frontier : List MethodId}
    (inside : ∀ m ∈ frontier, CallChain callers start m) {m : MethodId}
    (hm : m ∈ (expand callers marks frontier).next) : CallChain callers start m := by
  obtain ⟨⟨n, hn, hmn⟩, -⟩ := mem_next_expand.1 hm
  exact .call (inside n hn) hmn

/-- All questions of the search from a level on, in order. -/
def levels (callers : MethodId → List MethodId) (start : MethodId)
    (fin : FinitelyCalled callers start) (marks : Marks) (frontier : List MethodId)
    (inside : ∀ m ∈ frontier, CallChain callers start m) : List Expansion :=
  let level := expand callers marks frontier
  if _h : level.next = [] then level.expansions
  else
    level.expansions ++ levels callers start fin level.marks level.next
      fun _ hm => callChain_of_mem_next inside hm
termination_by unmarked fin.choose marks
decreasing_by
  obtain ⟨m, hm⟩ := List.exists_mem_of_ne_nil _ _h
  obtain ⟨hex, hbefore⟩ := mem_next_expand.1 hm
  exact unmarked_lt (fun k hk => has_expand.2 (.inr hk))
    (fin.choose_spec m (callChain_of_mem_next inside hm)) hbefore (has_expand.2 (.inl hex))

end RootSearch

namespace ProgramView

/-- All questions of the search from a method, in order. -/
def search (v : ProgramView) (start : MethodId) (fin : FinitelyCalled v.callers start) :
    List Expansion :=
  RootSearch.levels v.callers start fin ((Marks.none v.methodCount).mark start).2 [start]
    fun m hm => by
      rw [List.mem_singleton.1 hm]
      exact .here

/-- The root callers of a method: the methods without callers that the search meets, in the order
in which it meets them. -/
def rootCallers (v : ProgramView) (start : MethodId) (fin : FinitelyCalled v.callers start) :
    List MethodId :=
  ((v.search start fin).filter fun e => e.callers.isEmpty).map Expansion.method

end ProgramView
end KeywordAudit
