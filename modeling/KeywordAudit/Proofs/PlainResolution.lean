import Mathlib.Data.Finset.Sort
import Mathlib.Tactic.Tauto
import KeywordAudit.Proofs.Inspection
import KeywordAudit.Proofs.Resolution
import KeywordAudit.Proofs.RootSearch

/-!
# Resolving without a memory

A resolution passes over the hits of a method that it has traced before.  Nothing is lost by this,
whatever the earlier search found: the table is the one in which the entry of every method with a
hit is searched for on its own, also where there are no root callers to enter, and the classes are
those that every single hit brings in.  So a resolution is told by which methods have hits; their
order, their number and everything else about the hits makes no difference.
-/

namespace KeywordAudit.Resolution

/-- The resolution without a memory: the methods with hits in increasing order, each with the root
callers of a search of its own, and the classes of the root callers of all hits. -/
def plain (view : ProgramView) (fin : view.CallersFinite) (hits : List Hit) : Resolution where
  roots := (hits.map Hit.method).toFinset.sort.map fun id => (id, view.rootCallers id (fin id))
  classes := .ofList (hits.flatMap fun hit =>
    declaringNames view (view.rootCallers hit.method (fin hit.method)))

theorem eq_of_parts {r r' : Resolution} (hroots : r.roots = r'.roots)
    (hclasses : r.classes = r'.classes) : r = r' := by
  cases r
  cases r'
  rw [mk.injEq]
  exact ⟨hroots, hclasses⟩

/-! ## The methods of the table -/

theorem lookup_eq_none_iff_not_mem {l : List (MethodId × List MethodId)} {id : MethodId} :
    l.lookup id = none ↔ id ∉ l.map Prod.fst := by
  rw [List.lookup_eq_none_iff, List.mem_map]
  constructor
  · rintro h ⟨e, he, rfl⟩
    exact absurd (h e he) (by simp)
  · intro h e he
    exact bne_iff_ne.2 fun heq => h ⟨e, he, heq.symm⟩

/-- A new entry is put where its method belongs in the order. -/
theorem map_fst_insertEntry {id : MethodId} (roots : List MethodId)
    {l : List (MethodId × List MethodId)} (hnew : id ∉ l.map Prod.fst) :
    (insertEntry id roots l).map Prod.fst = insertIncreasing id (l.map Prod.fst) := by
  induction l with
  | nil => rfl
  | cons entry l ih =>
    obtain ⟨other, known⟩ := entry
    rw [List.map_cons, List.mem_cons, not_or] at hnew
    obtain ⟨hne, hrest⟩ := hnew
    rw [insertEntry, List.map_cons, insertIncreasing]
    by_cases hlt : id < other
    · rw [if_pos hlt, if_pos hlt]
      rfl
    · rw [if_neg hlt, if_neg hlt, if_neg hne, List.map_cons, ih hrest]

theorem mem_insertEntry {id : MethodId} {roots : List MethodId}
    {l : List (MethodId × List MethodId)} {e : MethodId × List MethodId} :
    e ∈ insertEntry id roots l ↔ e = (id, roots) ∨ e ∈ l := by
  induction l with
  | nil => rw [insertEntry, List.mem_singleton, or_iff_left List.not_mem_nil]
  | cons entry l ih =>
    obtain ⟨other, known⟩ := entry
    rw [insertEntry]
    split
    · rw [List.mem_cons]
    · rw [List.mem_cons, ih, List.mem_cons, or_left_comm]

/-! ## The table and searches on their own -/

/-- A table as single searches fill it: methods in increasing order, each with the root callers
that a search from it alone finds. -/
structure TableExact (view : ProgramView) (fin : view.CallersFinite)
    (table : List (MethodId × List MethodId)) : Prop where
  increasing : (table.map Prod.fst).Pairwise (· < ·)
  searched : ∀ e ∈ table, e.2 = view.rootCallers e.1 (fin e.1)

section

variable {view : ProgramView} {fin : view.CallersFinite}

/-- Such a table is told by its methods. -/
theorem TableExact.eq_map {table : List (MethodId × List MethodId)}
    (h : TableExact view fin table) :
    table = (table.map Prod.fst).map fun id => (id, view.rootCallers id (fin id)) := by
  have hentries : table.map (fun e => (e.1, view.rootCallers e.1 (fin e.1))) = table.map id := by
    refine List.map_congr_left fun e he => ?_
    rw [← h.searched e he]
    rfl
  rw [List.map_map]
  exact (hentries.trans (List.map_id table)).symm

/-- Tracing a method fills the table as a search on its own does, or leaves it as it is. -/
theorem TableExact.trace {state : Resolution × Array Event} (h : TableExact view fin state.1.roots)
    (id : MethodId) : TableExact view fin (trace view fin state id).1.roots := by
  cases hid : state.1.roots.lookup id with
  | some roots =>
    rw [trace_of_known view fin state hid]
    exact h
  | none =>
    rw [trace_of_new view fin state hid]
    constructor
    · rw [map_fst_insertEntry _ (lookup_eq_none_iff_not_mem.1 hid)]
      exact pairwise_insertIncreasing id h.increasing
    · intro e he
      rcases mem_insertEntry.1 he with rfl | he
      · rfl
      · exact h.searched e he

theorem TableExact.foldl_trace {state : Resolution × Array Event}
    (h : TableExact view fin state.1.roots) (ids : List MethodId) :
    TableExact view fin (ids.foldl (Resolution.trace view fin) state).1.roots := by
  induction ids generalizing state with
  | nil => exact h
  | cons id ids ih => exact ih (h.trace id)

variable {hits : List Hit}

theorem tableExact_run : TableExact view fin (run view fin hits).1.roots := by
  have hempty : TableExact view fin (({}, #[]) : Resolution × Array Event).1.roots :=
    ⟨List.Pairwise.nil, fun _ he => absurd he List.not_mem_nil⟩
  exact hempty.foldl_trace (hits.map Hit.method)

/-- The table has an entry for exactly the methods with hits. -/
theorem mem_methods_run {id : MethodId} :
    id ∈ (run view fin hits).1.roots.map Prod.fst ↔ id ∈ hits.map Hit.method := by
  have hlookup := @lookup_run view fin hits id
  by_cases hid : id ∈ hits.map Hit.method
  · refine iff_of_true ?_ hid
    by_contra hnot
    rw [if_pos hid, lookup_eq_none_iff_not_mem.2 hnot] at hlookup
    exact absurd hlookup (by simp)
  · rw [if_neg hid] at hlookup
    exact iff_of_false (lookup_eq_none_iff_not_mem.1 hlookup) hid

/-- The methods of the table, in order. -/
theorem methods_run :
    (run view fin hits).1.roots.map Prod.fst = (hits.map Hit.method).toFinset.sort := by
  apply tableExact_run.increasing.eq_of_mem_iff (Finset.sortedLT_sort _).pairwise
  intro id
  rw [mem_methods_run, Finset.mem_sort, List.mem_toFinset]

/-- Remembering what was traced makes no difference to what a resolution finds. -/
theorem run_eq_plain : (run view fin hits).1 = plain view fin hits := by
  have hroots : (run view fin hits).1.roots = (plain view fin hits).roots := by
    rw [tableExact_run.eq_map, methods_run]
    rfl
  have hclasses : (run view fin hits).1.classes = (plain view fin hits).classes := by
    refine NameSet.ext fun name => ?_
    rw [mem_classes_run, plain, NameSet.mem_ofList, List.mem_flatMap]
    simp only [mem_declaringNames]
  exact eq_of_parts hroots hclasses

/-- The root callers of a method without hits are not recorded. -/
theorem rootsFor_run_of_not_mem {id : MethodId} (h : id ∉ hits.map Hit.method) :
    (run view fin hits).1.rootsFor id = [] := by
  rw [rootsFor, lookup_run, if_neg h, Option.getD_none]

/-- A resolution is told by which methods have hits. -/
theorem run_eq_of_methods {hits' : List Hit}
    (h : ∀ id, id ∈ hits'.map Hit.method ↔ id ∈ hits.map Hit.method) :
    (run view fin hits').1 = (run view fin hits).1 := by
  have hmethods : (hits'.map Hit.method).toFinset = (hits.map Hit.method).toFinset := by
    ext id
    rw [List.mem_toFinset, List.mem_toFinset, h id]
  have hroots : (run view fin hits').1.roots = (run view fin hits).1.roots := by
    rw [run_eq_plain, run_eq_plain, plain, plain, hmethods]
  have hclasses : (run view fin hits').1.classes = (run view fin hits).1.classes := by
    refine NameSet.ext fun name =>
      ⟨classes_mono fun hit hhit => ?_, classes_mono fun hit hhit => ?_⟩
    · exact List.mem_map.1 ((h hit.method).1 (List.mem_map_of_mem hhit))
    · exact List.mem_map.1 ((h hit.method).2 (List.mem_map_of_mem hhit))
  exact eq_of_parts hroots hclasses

/-- The classes of two lists of hits together are those of either. -/
theorem mem_classes_append {hits' : List Hit} {name : String} :
    name ∈ (run view fin (hits ++ hits')).1.classes ↔
      name ∈ (run view fin hits).1.classes ∨ name ∈ (run view fin hits').1.classes := by
  simp only [mem_classes_run, List.mem_append, or_and_right, exists_or]

end

/-- **A resolution needs no memory.**  What it finds is what is found if every method with a hit is
searched from on its own: such a method has the root callers of that search, all others have none,
and the classes are those that declare the root callers of the hits, as far as these are declared.
So lists of hits in the same methods, in any order and with any repetition, have the same
resolution, and two lists one after the other give the classes of both. -/
theorem resolution_without_memory (view : ProgramView) (fin : view.CallersFinite) :
    (∀ hits : List Hit,
      (run view fin hits).1 = plain view fin hits ∧
      (∀ hit ∈ hits, (run view fin hits).1.rootsFor hit.method =
        view.rootCallers hit.method (fin hit.method)) ∧
      (∀ m, (∀ hit ∈ hits, hit.method ≠ m) → (run view fin hits).1.rootsFor m = []) ∧
      ∀ name, name ∈ (run view fin hits).1.classes ↔ ∃ hit ∈ hits,
        ∃ root ∈ view.rootCallers hit.method (fin hit.method),
          ∃ c, view.declaringClass root = some c ∧ c.name = name) ∧
    (∀ hits hits' : List Hit, (∀ m, m ∈ hits'.map Hit.method ↔ m ∈ hits.map Hit.method) →
      (run view fin hits').1 = (run view fin hits).1) ∧
    ∀ (hits hits' : List Hit) (name : String),
      name ∈ (run view fin (hits ++ hits')).1.classes ↔
        name ∈ (run view fin hits).1.classes ∨ name ∈ (run view fin hits').1.classes := by
  refine ⟨fun hits => ⟨run_eq_plain, fun hit hhit => ?_, fun m hm => ?_, fun name => ?_⟩,
    fun hits hits' => run_eq_of_methods, fun hits hits' name => mem_classes_append⟩
  · exact rootsFor_run (List.mem_map_of_mem hhit)
  · apply rootsFor_run_of_not_mem
    intro hmem
    obtain ⟨hit, hhit, heq⟩ := List.mem_map.1 hmem
    exact hm hit hhit heq
  · exact mem_classes_run

/-- A method that is called from a class and from an unknown number, and two methods that only call
each other. -/
def mixedRoots : Tables where
  enumeration := [0, 1, 2, 3]
  methods := [
    ⟨"<a.Main: void run()>", 0, []⟩, ⟨"<b.Net: void send()>", 1, []⟩,
    ⟨"<c.Loop: void ping()>", 2, []⟩, ⟨"<c.Loop: void pong()>", 2, []⟩]
  classes := [.ofName "a.Main", .ofName "b.Net", .ofName "c.Loop"]
  callers := [(1, [9, 0]), (2, [3]), (3, [2])]
  methodCount := 4

/-- Hits in the called method, in one of the other two and in a number without a method, once with
repetitions and once in another order: the resolution is the same, the called method has both its
root callers, one of them without a class, and the root caller that has no hit has no entry. -/
theorem resolution_mixedRoots :
    let fin := mixedRoots.callersFinite
    let hits : List Hit := [⟨1, 0, "the key", "key", .anyStatement⟩,
      ⟨2, 0, "the key", "key", .anyStatement⟩, ⟨1, 4, "a key again", "key", .anyStatement⟩,
      ⟨7, 0, "the key", "key", .anyStatement⟩]
    let hits' : List Hit := [⟨7, 2, "an id", "id", .libraryApi⟩, ⟨2, 0, "the key", "key",
      .anyStatement⟩, ⟨1, 0, "the key", "key", .anyStatement⟩]
    (∀ m, m ∈ hits'.map Hit.method ↔ m ∈ hits.map Hit.method) ∧
    (run mixedRoots.view fin hits').1 = (run mixedRoots.view fin hits).1 ∧
    0 ∈ (run mixedRoots.view fin hits).1.rootsFor 1 ∧
    9 ∈ (run mixedRoots.view fin hits).1.rootsFor 1 ∧
    (∀ hit ∈ hits, hit.method ≠ 0) ∧ (run mixedRoots.view fin hits).1.rootsFor 0 = [] ∧
    "a.Main" ∈ (run mixedRoots.view fin hits').1.classes := by
  intro fin hits hits'
  obtain ⟨hplain, hsame, -⟩ := resolution_without_memory mixedRoots.view fin
  obtain ⟨-, hroots, hnone, hclasses⟩ := hplain hits
  have hmethods : ∀ m, m ∈ hits'.map Hit.method ↔ m ∈ hits.map Hit.method := by
    intro m
    simp only [hits, hits', List.map_cons, List.map_nil, List.mem_cons, List.not_mem_nil]
    tauto
  have hmain : 0 ∈ mixedRoots.view.rootCallers 1 (fin 1) :=
    ProgramView.mem_rootCallers.2 ⟨rfl, .call .here (by decide)⟩
  have hunknown : 9 ∈ mixedRoots.view.rootCallers 1 (fin 1) :=
    ProgramView.mem_rootCallers.2 ⟨rfl, .call .here (by decide)⟩
  have hsend : (run mixedRoots.view fin hits).1.rootsFor 1 =
      mixedRoots.view.rootCallers 1 (fin 1) := hroots _ List.mem_cons_self
  have hzero : ∀ hit ∈ hits, hit.method ≠ 0 := by decide
  refine ⟨hmethods, hsame hits hits' hmethods, ?_, ?_, hzero, hnone 0 hzero, ?_⟩
  · rw [hsend]
    exact hmain
  · rw [hsend]
    exact hunknown
  · rw [hsame hits hits' hmethods]
    exact (hclasses "a.Main").2 ⟨_, List.mem_cons_self, 0, hmain, .ofName "a.Main", rfl, by decide⟩

end KeywordAudit.Resolution
