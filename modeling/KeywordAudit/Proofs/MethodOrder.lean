import KeywordAudit.Proofs.ModelAnalysis

/-!
# The order of the methods

The order in which a model lists its methods decides their numbers, and with them the order of the
hits, of the callers and of the search.  None of this shows in what an analysis finds: seen by
signatures, every result is read off the entries of the model, and it is either a set or a list
put together from pieces, one for each entry.
-/

namespace KeywordAudit

/-- The signature of a method; none if the method is not known. -/
def ProgramView.signature? (v : ProgramView) (id : MethodId) : Option String :=
  (v.method id).map Method.signature

/-- A hit with the signature of its method in place of the number. -/
def Hit.named (v : ProgramView) (h : Hit) : Option String × Nat × String × String × Scope :=
  (v.signature? h.method, h.index, h.text, h.keyword, h.scope)

/-- Pieces put together along the places of a list are pieces put together along the list. -/
theorem flatMap_range {α β : Type} {l : List α} {g : Nat → List β} {f : α → List β}
    (h : ∀ (i : Nat) (a : α), l[i]? = some a → g i = f a) :
    (List.range l.length).flatMap g = l.flatMap f := by
  induction l generalizing g with
  | nil => rfl
  | cons a l ih =>
    rw [List.length_cons, List.range_succ_eq_map, List.flatMap_cons, List.flatMap_map,
      List.flatMap_cons, h 0 a rfl, ih fun i a' ha' => h (i + 1) a' ha']

namespace Model

variable {c : Classification} {m : Model} {p : Program}

/-! ## Results by entries -/

namespace Describes

variable (h : m.Describes c p)

include h

/-- What is put together method by method is put together entry by entry, if what a method
contributes can be read off its outline. -/
theorem flatMap_methods {β : Type} {g : MethodId → List β} {f : Outline → List β}
    (hg : ∀ id method, p.view.method id = some method → g id = f (method.outline p.classes)) :
    p.view.methods.flatMap g = m.methods.flatMap fun e => f (m.outline c e) := by
  calc p.view.methods.flatMap g
      = (List.range p.methods.toList.length).flatMap g := by rw [Array.length_toList]; rfl
    _ = p.methods.toList.flatMap fun method => f (method.outline p.classes) := by
        refine flatMap_range fun id method hmethod => hg id method ?_
        rw [Array.getElem?_toList] at hmethod
        exact hmethod
    _ = (p.methods.toList.map (Method.outline p.classes)).flatMap f := by rw [List.flatMap_map]
    _ = (m.methods.map (m.outline c)).flatMap f := by rw [h.outlines]
    _ = m.methods.flatMap fun e => f (m.outline c e) := by rw [List.flatMap_map]

/-- The hits by signatures, entry by entry. -/
theorem named_hits (keywords : KeywordList) (policy : Policy) :
    (Inspection.run p.view keywords policy).1.hits.map (Hit.named p.view) =
      m.methods.flatMap fun e =>
        (Inspection.expectedInBody keywords policy .substring 0 (e.body.map (statement c))).map
          fun hit => (some e.signature, hit.index, hit.text, hit.keyword, hit.scope) := by
  rw [Inspection.run, Inspection.hits_runWith, Inspection.expectedHits, List.map_flatMap]
  refine h.flatMap_methods (f := fun o =>
    (Inspection.expectedInBody keywords policy .substring 0 o.body).map
      fun hit => (some o.signature, hit.index, hit.text, hit.keyword, hit.scope)) ?_
  intro id method hmethod
  rw [Inspection.knownStatements_of_some hmethod, p.standard_view.statements_of_method hmethod]
  -- all hits of the method carry its number, so they have its signature
  have hnamed : (Inspection.expectedInBody keywords policy .substring id method.body).map
      (Hit.named p.view) =
      (Inspection.expectedInBody keywords policy .substring id method.body).map
        fun hit => (some method.signature, hit.index, hit.text, hit.keyword, hit.scope) := by
    refine List.map_congr_left fun hit hhit => ?_
    rw [Hit.named, (Inspection.mem_expectedInBody.1 hhit).1, ProgramView.signature?, hmethod,
      Option.map_some]
  rw [hnamed]
  -- what is left does not look at the number of the method
  simp only [Inspection.expectedInBody, List.map_flatMap, List.map_map]
  rfl

/-- The container statements, entry by entry. -/
theorem container_eq (keywords : KeywordList) (policy : Policy) :
    (Inspection.run p.view keywords policy).1.containerStatements =
      m.methods.flatMap fun e => Inspection.containerUses policy (e.body.map (statement c)) := by
  rw [Inspection.run, Inspection.containerStatements_runWith, Inspection.expectedContainer]
  refine h.flatMap_methods (f := fun o => Inspection.containerUses policy o.body) ?_
  intro id method hmethod
  rw [Inspection.knownStatements_of_some hmethod, p.standard_view.statements_of_method hmethod]
  rfl

/-- The package keywords are those found in the package of an entry's class. -/
theorem mem_packageKeywords_iff (keywords : KeywordList) (policy : Policy) (k : String) :
    k ∈ (Inspection.run p.view keywords policy).1.packageKeywords ↔
      k ∈ keywords.toList ∧ ∃ e ∈ m.methods,
        Matcher.substring (m.classDecl e.className).package k = true := by
  rw [Inspection.run, Inspection.mem_packageKeywords]
  refine and_congr_right fun _ => ?_
  constructor
  · rintro ⟨id, hid, method, decl, hmethod, hdecl, hfound⟩
    obtain ⟨e, he⟩ := h.entry_of_method hmethod
    obtain ⟨-, -, -, -, hclass⟩ := h.method_of_entry he
    rw [p.standard_view.declaringClass, hmethod, Option.bind_some, hdecl, Option.some.injEq]
      at hclass
    rw [hclass] at hfound
    exact ⟨e, List.mem_of_getElem? he, hfound⟩
  · rintro ⟨e, he, hfound⟩
    obtain ⟨id, hid⟩ := List.mem_iff_getElem?.1 he
    obtain ⟨method, hmethod, -, -, hclass⟩ := h.method_of_entry hid
    rw [p.standard_view.declaringClass, hmethod, Option.bind_some] at hclass
    exact ⟨id, h.mem_methods_of_entry hid, method, _, hmethod, hclass, hfound⟩

/-- The signature of a method is that of its entry. -/
theorem signature?_of_entry {id : MethodId} {e : MethodEntry} (he : m.methods[id]? = some e) :
    p.view.signature? id = some e.signature := by
  obtain ⟨method, hmethod, hsignature, -, -⟩ := h.method_of_entry he
  rw [ProgramView.signature?, hmethod, Option.map_some, hsignature]

/-- The signatures of the root callers of a method are those of the root callers of its entry. -/
theorem mem_rootSignatures_iff (hdistinct : (m.methods.map MethodEntry.signature).Nodup)
    {id : MethodId} {e : MethodEntry} (he : m.methods[id]? = some e) (s : Option String) :
    s ∈ (p.view.rootCallers id (p.callersFinite id)).map p.view.signature? ↔
      ∃ root ∈ m.methods, some root.signature = s ∧ m.IsRootOf c root e := by
  rw [List.mem_map]
  constructor
  · rintro ⟨r, hr, rfl⟩
    obtain ⟨root, hroot, hisRoot⟩ := (h.mem_rootCallers_iff hdistinct he).1 hr
    exact ⟨root, List.mem_of_getElem? hroot, (h.signature?_of_entry hroot).symm, hisRoot⟩
  · rintro ⟨root, hroot, rfl, hisRoot⟩
    obtain ⟨r, hr⟩ := List.mem_iff_getElem?.1 hroot
    exact ⟨r, (h.mem_rootCallers_iff hdistinct he).2 ⟨root, hr, hisRoot⟩,
      h.signature?_of_entry hr⟩

end Describes

/-! ## Another order -/

section Reordered

variable {methods' : List MethodEntry} (hperm : methods'.Perm m.methods)

include hperm

/-- Calls do not depend on the order of the methods. -/
theorem calls_reordered : ({ m with methods := methods' } : Model).Calls c = m.Calls c := by
  funext caller callee
  refine propext ?_
  unfold Calls
  rw [hperm.mem_iff, hperm.mem_iff]

/-- Root callers do not depend on the order of the methods. -/
theorem isRootOf_reordered (root e : MethodEntry) :
    ({ m with methods := methods' } : Model).IsRootOf c root e ↔ m.IsRootOf c root e := by
  rw [IsRootOf, IsRootOf, calls_reordered hperm]

variable {p' : Program} (h : m.Describes c p)
  (h' : ({ m with methods := methods' } : Model).Describes c p')

include h h'

/-- The hits by signatures are the same up to their order. -/
theorem named_hits_reordered (keywords : KeywordList) (policy : Policy) :
    ((Inspection.run p'.view keywords policy).1.hits.map (Hit.named p'.view)).Perm
      ((Inspection.run p.view keywords policy).1.hits.map (Hit.named p.view)) := by
  rw [h.named_hits, h'.named_hits]
  exact hperm.flatMap_right _

/-- The container statements are the same up to their order. -/
theorem container_reordered (keywords : KeywordList) (policy : Policy) :
    (Inspection.run p'.view keywords policy).1.containerStatements.Perm
      (Inspection.run p.view keywords policy).1.containerStatements := by
  rw [h.container_eq, h'.container_eq]
  exact hperm.flatMap_right _

/-- The keywords with hits are the same: they are those of the hits by signatures. -/
theorem keywordsHit_reordered (keywords : KeywordList) (policy : Policy) :
    (Inspection.run p'.view keywords policy).1.keywordsHit =
      (Inspection.run p.view keywords policy).1.keywordsHit := by
  have hkeywords : ∀ (q : Program) (k : String),
      k ∈ (Inspection.run q.view keywords policy).1.keywordsHit ↔
        ∃ x ∈ (Inspection.run q.view keywords policy).1.hits.map (Hit.named q.view),
          x.2.2.2.1 = k := by
    intro q k
    rw [Inspection.run, Inspection.mem_keywordsHit]
    simp only [List.mem_map, exists_exists_and_eq_and]
    rfl
  refine NameSet.ext fun k => ?_
  simp only [hkeywords, (named_hits_reordered hperm h h' keywords policy).mem_iff]

/-- The package keywords are the same. -/
theorem packageKeywords_reordered (keywords : KeywordList) (policy : Policy) :
    (Inspection.run p'.view keywords policy).1.packageKeywords =
      (Inspection.run p.view keywords policy).1.packageKeywords := by
  refine NameSet.ext fun k => ?_
  rw [h.mem_packageKeywords_iff, h'.mem_packageKeywords_iff]
  simp only [hperm.mem_iff]
  rfl

/-- The root caller classes are the same. -/
theorem classes_reordered (hdistinct : (m.methods.map MethodEntry.signature).Nodup)
    (hdistinct' : (methods'.map MethodEntry.signature).Nodup) (keywords : KeywordList)
    (policy : Policy) :
    (Resolution.run p'.view p'.callersFinite
      (Inspection.run p'.view keywords policy).1.hits).1.classes =
      (Resolution.run p.view p.callersFinite
        (Inspection.run p.view keywords policy).1.hits).1.classes := by
  refine NameSet.ext fun name => ?_
  rw [h.mem_classes_iff hdistinct, h'.mem_classes_iff hdistinct']
  simp only [hperm.mem_iff, isRootOf_reordered hperm]

/-- The root callers of methods with the same signature have the same signatures. -/
theorem rootSignatures_reordered (hdistinct : (m.methods.map MethodEntry.signature).Nodup)
    (hdistinct' : (methods'.map MethodEntry.signature).Nodup) {id id' : MethodId}
    {e e' : MethodEntry} (he : m.methods[id]? = some e) (he' : methods'[id']? = some e')
    (hsignature : p'.view.signature? id' = p.view.signature? id) (s : Option String) :
    s ∈ (p'.view.rootCallers id' (p'.callersFinite id')).map p'.view.signature? ↔
      s ∈ (p.view.rootCallers id (p.callersFinite id)).map p.view.signature? := by
  rw [h.signature?_of_entry he, h'.signature?_of_entry he', Option.some.injEq] at hsignature
  -- signatures are distinct, so both methods come from the same entry
  have heq : e' = e :=
    List.inj_on_of_nodup_map hdistinct (hperm.mem_iff.1 (List.mem_of_getElem? he'))
      (List.mem_of_getElem? he) hsignature
  rw [h.mem_rootSignatures_iff hdistinct he, h'.mem_rootSignatures_iff hdistinct' he', heq]
  simp only [hperm.mem_iff, isRootOf_reordered hperm]

end Reordered

/-- **The order of the methods does not show in what is found.**  Two models with the same methods
in different orders give the same keywords, package keywords and root caller classes, the same hits
by signatures and the same container statements up to their order, and for hits in methods with the
same signature the same signatures of root callers. -/
theorem analysis_methods_perm (c : Classification) (m : Model) (methods' : List MethodEntry)
    (keywords : KeywordList) (policy : Policy)
    (hdistinct : (m.methods.map MethodEntry.signature).Nodup) (hperm : methods'.Perm m.methods) :
    ∃ p p', (m.build c).1 = .ok p ∧
      (({ m with methods := methods' } : Model).build c).1 = .ok p' ∧
      let found := (Inspection.run p.view keywords policy).1
      let found' := (Inspection.run p'.view keywords policy).1
      let resolved := (Resolution.run p.view p.callersFinite found.hits).1
      let resolved' := (Resolution.run p'.view p'.callersFinite found'.hits).1
      found'.keywordsHit = found.keywordsHit ∧
      found'.packageKeywords = found.packageKeywords ∧
      resolved'.classes = resolved.classes ∧
      (found'.hits.map (Hit.named p'.view)).Perm (found.hits.map (Hit.named p.view)) ∧
      found'.containerStatements.Perm found.containerStatements ∧
      ∀ hit ∈ found.hits, ∀ hit' ∈ found'.hits,
        p'.view.signature? hit'.method = p.view.signature? hit.method →
        ∀ s, s ∈ (resolved'.rootsFor hit'.method).map p'.view.signature? ↔
          s ∈ (resolved.rootsFor hit.method).map p.view.signature? := by
  have hdistinct' : (methods'.map MethodEntry.signature).Nodup :=
    (hperm.map MethodEntry.signature).nodup_iff.2 hdistinct
  obtain ⟨p, hok, h⟩ := m.exists_program c hdistinct
  obtain ⟨p', hok', h'⟩ := ({ m with methods := methods' } : Model).exists_program c hdistinct'
  refine ⟨p, p', hok, hok', keywordsHit_reordered hperm h h' keywords policy,
    packageKeywords_reordered hperm h h' keywords policy,
    classes_reordered hperm h h' hdistinct hdistinct' keywords policy,
    named_hits_reordered hperm h h' keywords policy,
    container_reordered hperm h h' keywords policy, ?_⟩
  intro hit hhit hit' hhit' hsignature s
  obtain ⟨e, he⟩ := h.entry_of_hit hhit
  obtain ⟨e', he'⟩ := h'.entry_of_hit hhit'
  rw [Resolution.rootsFor_run (List.mem_map.2 ⟨hit, hhit, rfl⟩),
    Resolution.rootsFor_run (List.mem_map.2 ⟨hit', hhit', rfl⟩)]
  exact rootSignatures_reordered hperm h h' hdistinct hdistinct' he he' hsignature s

/-- The one hit of a model has root callers with the same signatures once the methods stand in
reverse. -/
theorem analysis_platformModel_reverse :
    (platformModel.methods.map MethodEntry.signature).Nodup ∧
    platformModel.methods.reverse.Perm platformModel.methods ∧
    ∃ p p', (platformModel.build {}).1 = .ok p ∧
      (({ platformModel with methods := platformModel.methods.reverse } : Model).build {}).1 =
        .ok p' ∧
      let found := (Inspection.run p.view (.ofList ["key"]) { interestedApiOnly := false }).1
      let found' := (Inspection.run p'.view (.ofList ["key"]) { interestedApiOnly := false }).1
      ∃ hit ∈ found.hits, ∃ hit' ∈ found'.hits,
        p.view.signature? hit.method = some "<b.Net: void send()>" ∧
        p'.view.signature? hit'.method = some "<b.Net: void send()>" ∧
        ∀ s, s ∈ ((Resolution.run p'.view p'.callersFinite found'.hits).1.rootsFor
            hit'.method).map p'.view.signature? ↔
          s ∈ ((Resolution.run p.view p.callersFinite found.hits).1.rootsFor
            hit.method).map p.view.signature? := by
  have hdistinct : (platformModel.methods.map MethodEntry.signature).Nodup := by decide
  have hperm := List.reverse_perm platformModel.methods
  obtain ⟨p, p', hok, hok', -, -, -, hhits, -, hroots⟩ := analysis_methods_perm {} platformModel
    platformModel.methods.reverse (.ofList ["key"]) { interestedApiOnly := false } hdistinct hperm
  obtain ⟨q, hq, hdescribes⟩ := platformModel.exists_program {} hdistinct
  rw [hok, Except.ok.injEq] at hq
  rw [← hq] at hdescribes
  have hnamed := hdescribes.named_hits (.ofList ["key"]) { interestedApiOnly := false }
  have hmem : (some "<b.Net: void send()>", 0, "the key", "key", Scope.anyStatement) ∈
      (Inspection.run p.view (.ofList ["key"]) { interestedApiOnly := false }).1.hits.map
        (Hit.named p.view) := by
    rw [hnamed]
    decide
  obtain ⟨hit, hhit, hname⟩ := List.mem_map.1 hmem
  obtain ⟨hit', hhit', hname'⟩ := List.mem_map.1 (hhits.mem_iff.2 hmem)
  have hsignature : p.view.signature? hit.method = some "<b.Net: void send()>" :=
    congrArg Prod.fst hname
  have hsignature' : p'.view.signature? hit'.method = some "<b.Net: void send()>" :=
    congrArg Prod.fst hname'
  exact ⟨hdistinct, hperm, p, p', hok, hok', hit, hhit, hit', hhit', hsignature, hsignature',
    hroots hit hhit hit' hhit' (hsignature'.trans hsignature.symm)⟩

end Model
end KeywordAudit
