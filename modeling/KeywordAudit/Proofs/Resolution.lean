import KeywordAudit.Analysis.Resolution

/-!
# What a resolution knows

The resolution remembers the methods it has traced and searches each of them once.  The entry of
a traced method is what a search of its own would find, whatever was traced before it, and the
classes collected are those of the root callers in the entries.
-/

namespace KeywordAudit.Resolution

/-! ## Entries -/

/-- An entry put into the list is found there, and all others are found as before. -/
theorem lookup_insertEntry {id : MethodId} (roots : List MethodId)
    {l : List (MethodId × List MethodId)} (hnew : l.lookup id = none) (other : MethodId) :
    (insertEntry id roots l).lookup other =
      if other = id then some roots else l.lookup other := by
  induction l with
  | nil =>
    rw [insertEntry, List.lookup_cons]
    by_cases h : other = id
    · rw [if_pos h, beq_iff_eq.2 h]
    · rw [if_neg h, beq_eq_false_iff_ne.2 h]
  | cons entry l ih =>
    obtain ⟨key, known⟩ := entry
    rw [List.lookup_cons] at hnew
    have hkey : (id == key) = false := by
      cases hk : id == key with
      | false => rfl
      | true => rw [hk] at hnew; exact absurd hnew (by simp)
    rw [hkey] at hnew
    -- the entry goes before this one, or further down in the list
    rw [insertEntry]
    split
    · rw [List.lookup_cons]
      by_cases h : other = id
      · rw [if_pos h, beq_iff_eq.2 h]
      · rw [if_neg h, beq_eq_false_iff_ne.2 h]
    · rw [List.lookup_cons, List.lookup_cons, ih hnew]
      cases hother : other == key with
      | true =>
        have hne : other ≠ id := by
          intro h
          rw [← h, hother] at hkey
          exact absurd hkey (by decide)
        exact (if_neg hne).symm
      | false => rfl

/-! ## One method -/

section Trace

variable (view : ProgramView) (fin : view.CallersFinite) (state : Resolution × Array Event)

/-- A method that has an entry is not traced again. -/
theorem trace_of_known {id : MethodId} {roots : List MethodId}
    (h : state.1.roots.lookup id = some roots) : trace view fin state id = state := by
  obtain ⟨r, events⟩ := state
  rw [trace, if_pos]
  rw [isTraced, h, Option.isSome_some]

/-- A method that has no entry is searched, and what is found is entered. -/
theorem trace_of_new {id : MethodId} (h : state.1.roots.lookup id = none) :
    (trace view fin state id).1 =
      { roots := insertEntry id (view.rootCallers id (fin id)) state.1.roots
        classes := state.1.classes.insertAll
          (declaringNames view (view.rootCallers id (fin id))) } := by
  obtain ⟨r, events⟩ := state
  rw [trace, if_neg]
  · rfl
  · rw [isTraced, h, Option.isSome_none]
    decide

/-- Tracing a method adds what a search from it finds, unless the method has an entry. -/
theorem lookup_trace (id other : MethodId) :
    (trace view fin state id).1.roots.lookup other = (state.1.roots.lookup other).or
      (if other = id then some (view.rootCallers id (fin id)) else none) := by
  cases hid : state.1.roots.lookup id with
  | some roots =>
    rw [trace_of_known view fin state hid]
    by_cases h : other = id
    · rw [h, hid, Option.some_or]
    · rw [if_neg h, Option.or_none]
  | none =>
    rw [trace_of_new view fin state hid, lookup_insertEntry _ hid]
    by_cases h : other = id
    · rw [if_pos h, if_pos h, h, hid, Option.none_or]
    · rw [if_neg h, if_neg h, Option.or_none]

/-- The classes collected are those that declare the root callers in the entries. -/
def ClassesExact (r : Resolution) : Prop :=
  ∀ name, name ∈ r.classes ↔ ∃ id roots, r.roots.lookup id = some roots ∧
    ∃ root ∈ roots, ∃ c, view.declaringClass root = some c ∧ c.name = name

theorem mem_declaringNames {ids : List MethodId} {name : String} :
    name ∈ declaringNames view ids ↔
      ∃ id ∈ ids, ∃ c, view.declaringClass id = some c ∧ c.name = name := by
  rw [declaringNames, List.mem_filterMap]
  simp only [Option.map_eq_some_iff]

variable {view} in
/-- Tracing a method keeps the classes in step with the entries. -/
theorem ClassesExact.trace (h : ClassesExact view state.1) (id : MethodId) :
    ClassesExact view (trace view fin state id).1 := by
  intro name
  simp only [lookup_trace]
  cases hid : state.1.roots.lookup id with
  | some roots =>
    -- nothing changes, and the entry of the method comes before what a search would add
    rw [trace_of_known view fin state hid, h name]
    constructor
    · rintro ⟨other, roots', hother, hname⟩
      exact ⟨other, roots', by rw [hother, Option.some_or], hname⟩
    · rintro ⟨other, roots', hother, hname⟩
      refine ⟨other, roots', ?_, hname⟩
      by_cases hne : other = id
      · rw [hne, hid, Option.some_or] at hother
        rw [hne, hid, hother]
      · rw [if_neg hne, Option.or_none] at hother
        exact hother
  | none =>
    rw [trace_of_new view fin state hid, NameSet.mem_insertAll, mem_declaringNames, h name]
    constructor
    · rintro (hname | ⟨other, roots, hother, hname⟩)
      · exact ⟨id, _, by rw [hid, Option.none_or, if_pos rfl], hname⟩
      · exact ⟨other, roots, by rw [hother, Option.some_or], hname⟩
    · rintro ⟨other, roots, hother, hname⟩
      by_cases hne : other = id
      · rw [hne, hid, Option.none_or, if_pos rfl, Option.some.injEq] at hother
        rw [← hother] at hname
        exact .inl hname
      · rw [if_neg hne, Option.or_none] at hother
        exact .inr ⟨other, roots, hother, hname⟩

/-! ## All methods -/

/-- Tracing methods in turn gives each of them the entry of its own search. -/
theorem lookup_foldl_trace (ids : List MethodId) (other : MethodId) :
    (ids.foldl (trace view fin) state).1.roots.lookup other = (state.1.roots.lookup other).or
      (if other ∈ ids then some (view.rootCallers other (fin other)) else none) := by
  induction ids generalizing state with
  | nil => rw [List.foldl_nil, if_neg List.not_mem_nil, Option.or_none]
  | cons id ids ih =>
    rw [List.foldl_cons, ih, lookup_trace, Option.or_assoc]
    by_cases h : other = id
    · rw [if_pos h, if_pos (List.mem_cons.2 (.inl h)), Option.some_or, h]
    · rw [if_neg h, Option.none_or]
      simp only [List.mem_cons, h, false_or]

variable {view} in
theorem ClassesExact.foldl_trace (h : ClassesExact view state.1) (ids : List MethodId) :
    ClassesExact view (ids.foldl (Resolution.trace view fin) state).1 := by
  induction ids generalizing state with
  | nil => exact h
  | cons id ids ih => exact ih _ (h.trace fin state id)

end Trace

variable {view : ProgramView} {fin : view.CallersFinite} {hits : List Hit}

/-- The entry of a method with a hit is what a search from it finds; other methods have none. -/
theorem lookup_run (id : MethodId) :
    (run view fin hits).1.roots.lookup id =
      if id ∈ hits.map Hit.method then some (view.rootCallers id (fin id)) else none := by
  show ((hits.map Hit.method).foldl (trace view fin) ({}, #[])).1.roots.lookup id = _
  rw [lookup_foldl_trace]
  exact Option.none_or

/-- The root callers of a method with a hit. -/
theorem rootsFor_run {id : MethodId} (h : id ∈ hits.map Hit.method) :
    (run view fin hits).1.rootsFor id = view.rootCallers id (fin id) := by
  rw [rootsFor, lookup_run, if_pos h, Option.getD_some]

/-- The classes collected are those of the root callers of all methods with hits. -/
theorem mem_classes_run {name : String} :
    name ∈ (run view fin hits).1.classes ↔ ∃ h ∈ hits,
      ∃ root ∈ view.rootCallers h.method (fin h.method),
        ∃ c, view.declaringClass root = some c ∧ c.name = name := by
  have hempty : ClassesExact view (({}, #[]) : Resolution × Array Event).1 := by
    intro name
    constructor
    · intro hname
      exact absurd hname (NameSet.not_mem_empty name)
    · rintro ⟨id, roots, hlookup, -⟩
      exact absurd hlookup (by simp)
  have hexact : ClassesExact view (run view fin hits).1 :=
    hempty.foldl_trace fin _ (hits.map Hit.method)
  rw [hexact name]
  simp only [lookup_run]
  constructor
  · rintro ⟨id, roots, hlookup, hname⟩
    split at hlookup
    next hmem =>
      obtain ⟨h, hh, rfl⟩ := List.mem_map.1 hmem
      rw [← Option.some.inj hlookup] at hname
      exact ⟨h, hh, hname⟩
    next => exact absurd hlookup (by simp)
  · rintro ⟨h, hh, hname⟩
    exact ⟨h.method, _, if_pos (List.mem_map.2 ⟨h, hh, rfl⟩), hname⟩

/-- Where more methods have hits, the root callers are declared in more classes. -/
theorem classes_mono {hits' : List Hit} (h : ∀ hit ∈ hits, ∃ hit' ∈ hits', hit'.method = hit.method)
    {name : String} (hname : name ∈ (run view fin hits).1.classes) :
    name ∈ (run view fin hits').1.classes := by
  obtain ⟨hit, hhit, root, hroot, hclass⟩ := mem_classes_run.1 hname
  obtain ⟨hit', hhit', hmethod⟩ := h hit hhit
  rw [← hmethod] at hroot
  exact mem_classes_run.2 ⟨hit', hhit', root, hroot, hclass⟩

end KeywordAudit.Resolution
