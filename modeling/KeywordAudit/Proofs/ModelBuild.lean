import Mathlib.Data.List.Basic
import KeywordAudit.Model.Load
import KeywordAudit.Proofs.Builder

/-!
# The program of a model

A model with distinct signatures can be built, and its program is described by the model alone:
the methods are those of the model in order, with the classes and statements that the model and
the classification give them, and the callers are those of the calls that count.  What is proved
about an analysis of a model further on uses this description and never the builder.
-/

namespace KeywordAudit.Model

/-! ## What a model says -/

/-- The class of a name: the first one that the model declares, or else the one that the name
says. -/
def classDecl (m : Model) (name : String) : ClassDecl :=
  ((m.classes.find? fun e => e.name = name).map fun e => ClassDecl.ofEntry e.name e.package).getD
    (.ofName name)

/-- The outline of a method of a model. -/
def outline (c : Classification) (m : Model) (e : MethodEntry) : Outline :=
  ⟨e.signature, some (m.classDecl e.className), e.body.map (statement c)⟩

/-- A method of a model calls another one: the model says so, and the caller's class fits none of
the synthetic entry classes. -/
def Calls (c : Classification) (m : Model) (caller callee : MethodEntry) : Prop :=
  caller ∈ m.methods ∧ callee ∈ m.methods ∧
    (∃ call ∈ m.calls, call.caller = caller.signature ∧ call.callee = callee.signature) ∧
    ∀ pattern ∈ c.syntheticEntryClasses, Glob.fits pattern caller.className = false

instance (c : Classification) (m : Model) (caller callee : MethodEntry) :
    Decidable (m.Calls c caller callee) :=
  inferInstanceAs (Decidable (_ ∧ _ ∧ (∃ call ∈ m.calls, _ ∧ _) ∧ ∀ _ ∈ _, _ = _))

/-- A program is the one that a model describes. -/
structure Describes (c : Classification) (m : Model) (p : Program) : Prop where
  outlines : p.methods.toList.map (Method.outline p.classes) = m.methods.map (m.outline c)
  callers : ∀ x y, x ∈ p.calls.callers y ↔ ∃ caller callee,
    m.methods[x]? = some caller ∧ m.methods[y]? = some callee ∧ m.Calls c caller callee

/-- The name of a class is the one asked for. -/
@[simp] theorem name_classDecl (m : Model) (name : String) : (m.classDecl name).name = name := by
  unfold classDecl
  cases hfind : m.classes.find? fun e => e.name = name with
  | none => rfl
  | some e =>
    have hname := List.find?_some hfind
    rw [decide_eq_true_eq] at hname
    exact hname

/-! ## Adding the classes -/

/-- The builder after the classes of a list were added. -/
theorem addClasses_fst (b : Builder) (entries : List ClassEntry) :
    (addClasses b entries).1 =
      entries.foldl (fun b e => (b.addClass (.ofEntry e.name e.package)).1) b := by
  unfold addClasses
  generalize ([] : List Event) = events
  induction entries generalizing b events with
  | nil => rfl
  | cons e entries ih =>
    rw [List.foldl_cons, List.foldl_cons]
    exact ih _ _

/-- Classes are known by name afterwards, the first of each name, and all else is as before. -/
theorem addClasses_spec {b : Builder} (hb : b.Consistent) (entries : List ClassEntry) :
    (addClasses b entries).1.Consistent ∧
    (∀ name, (addClasses b entries).1.declared name = (b.declared name).or
      ((entries.find? fun e => e.name = name).map fun e => .ofEntry e.name e.package)) ∧
    (addClasses b entries).1.methods = b.methods ∧
    (addClasses b entries).1.methodIndex = b.methodIndex ∧
    (addClasses b entries).1.calls = b.calls ∧
    (addClasses b entries).1.synthetic = b.synthetic := by
  rw [addClasses_fst]
  induction entries generalizing b with
  | nil =>
    refine ⟨hb, fun name => ?_, rfl, rfl, rfl, rfl⟩
    rw [List.find?_nil, Option.map_none, Option.or_none]
    rfl
  | cons e entries ih =>
    obtain ⟨hmethods, hindex, hcalls, hsynthetic⟩ :=
      Builder.addClass_frame (b := b) (.ofEntry e.name e.package)
    obtain ⟨hcons, hdecl, hframe⟩ := ih (hb.addClass (.ofEntry e.name e.package))
    rw [hmethods, hindex, hcalls, hsynthetic] at hframe
    refine ⟨hcons, fun name => ?_, hframe⟩
    rw [List.foldl_cons, hdecl, hb.declared_addClass, Option.or_assoc, List.find?_cons]
    show (b.declared name).or ((if name = e.name then _ else none).or _) = _
    by_cases hname : name = e.name
    · rw [if_pos hname, decide_eq_true hname.symm]
      rfl
    · rw [if_neg hname, decide_eq_false (Ne.symm hname), Option.none_or]

/-! ## Adding the methods -/

/-- Methods with new and distinct signatures are accepted.  They append their outlines, with the
known classes or else with those that the names say. -/
theorem addMethods_spec (c : Classification) {b : Builder} (hb : b.Consistent)
    {entries : List MethodEntry} (hdistinct : (entries.map MethodEntry.signature).Nodup)
    (hnew : ∀ e ∈ entries, b.methodIndex[e.signature]? = none) :
    ∃ b', addMethods c b entries = .ok b' ∧ b'.Consistent ∧
      b'.outlines = b.outlines ++ (entries.map fun e =>
        ⟨e.signature, some ((b.declared e.className).getD (.ofName e.className)),
          e.body.map (statement c)⟩) ∧
      b'.calls = b.calls ∧ b'.synthetic = b.synthetic := by
  induction entries generalizing b with
  | nil => exact ⟨b, rfl, hb, (List.append_nil _).symm, rfl, rfl⟩
  | cons e entries ih =>
    rw [List.map_cons, List.nodup_cons] at hdistinct
    obtain ⟨hfirst, hdistinct⟩ := hdistinct
    have hnone := hnew e (List.mem_cons_self ..)
    obtain ⟨hindex, hcalls, hsynthetic⟩ :=
      Builder.withMethodIn_frame (b := b) e.signature e.className (e.body.map (statement c))
    -- the signature of the first method is none of the later ones
    have hlater : ∀ e' ∈ entries, (b.withMethodIn e.signature e.className
        (e.body.map (statement c))).methodIndex[e'.signature]? = none := by
      intro e' he'
      have hne : e.signature ≠ e'.signature := by
        intro heq
        exact hfirst (heq ▸ List.mem_map_of_mem he')
      rw [hindex, Std.HashMap.getElem?_insert, beq_eq_false_iff_ne.2 hne, if_neg (by decide)]
      exact hnew e' (List.mem_cons_of_mem _ he')
    obtain ⟨b', hok, hcons, houtlines, hcalls', hsynthetic'⟩ :=
      ih (hb.withMethodIn e.className _ hnone) hdistinct hlater
    refine ⟨b', ?_, hcons, ?_, hcalls'.trans hcalls, hsynthetic'.trans hsynthetic⟩
    · rw [addMethods, Builder.addMethod_of_new e.className _ hnone]
      exact hok
    · rw [houtlines, hb.outlines_withMethodIn, List.append_assoc, List.map_cons]
      refine congrArg _ (congrArg _ (List.map_congr_left fun e' _ => ?_))
      -- a class that a method brought in is the one that its name says
      rw [hb.declared_withMethodIn]
      cases b.declared e'.className with
      | some known => rfl
      | none =>
        rw [Option.none_or]
        split
        next hname =>
          rw [← hname]
          rfl
        next => rfl

/-! ## Adding the calls -/

/-- The builder after the calls of a list were added. -/
theorem addCalls_fst (b : Builder) (entries : List CallEntry) :
    (addCalls b entries).1 =
      entries.foldl (fun b e => (b.addCallBetween e.caller e.callee).1) b := by
  unfold addCalls
  generalize (0 : Nat) = skipped
  generalize (#[] : Array Event) = events
  induction entries generalizing b skipped events with
  | nil => rfl
  | cons e entries ih =>
    rw [List.foldl_cons, List.foldl_cons]
    exact ih _ _ _

/-- The calls between known signatures are recorded in order, and all else is as before. -/
theorem addCalls_spec (b : Builder) (entries : List CallEntry) :
    (addCalls b entries).1 =
      { b with
        calls := b.calls ++ entries.filterMap fun e => b.callBetween? e.caller e.callee } := by
  rw [addCalls_fst]
  induction entries generalizing b with
  | nil =>
    rw [List.filterMap_nil, Array.appendList_nil]
    rfl
  | cons e entries ih =>
    rw [List.foldl_cons, ih, Builder.addCallBetween_eq, List.filterMap_cons]
    -- recording a call does not change what the signatures of later calls stand for
    show { b with calls := (b.calls ++ (b.callBetween? e.caller e.callee).toList) ++
      entries.filterMap fun e : CallEntry => b.callBetween? e.caller e.callee } = _
    cases b.callBetween? e.caller e.callee with
    | none => rw [Option.toList_none, Array.appendList_nil]
    | some call =>
      rw [Option.toList_some, Array.appendList_cons, Array.appendList_nil, Array.appendList_cons]

/-! ## The whole build -/

/-- The builder with which a build starts. -/
def start (c : Classification) : Builder := Builder.empty.setSynthetic c.syntheticEntryClasses

theorem consistent_start (c : Classification) : (start c).Consistent where
  classes := Builder.consistent_empty.classes
  methods := Builder.consistent_empty.methods
  owners := Builder.consistent_empty.owners

theorem declared_start (c : Classification) (name : String) : (start c).declared name = none := by
  show ((∅ : Std.HashMap String ClassId)[name]?).bind _ = _
  rw [Std.HashMap.getElem?_empty, Option.bind_none]

/-- A build adds the classes, then the methods, then the calls. -/
theorem build_fst (c : Classification) (m : Model) :
    (m.build c).1 = match addMethods c (addClasses (start c) m.classes).1 m.methods with
      | .error e => .error e
      | .ok b => .ok (addCalls b m.calls).1.build.1 := by
  unfold build
  show (match addMethods c (addClasses (start c) m.classes).1 m.methods with
    | .error e => _
    | .ok b => _ : Except DuplicateMethod Program × List Event).1 = _
  cases addMethods c (addClasses (start c) m.classes).1 m.methods with
  | error e => rfl
  | ok b => rfl

/-- If the methods are accepted, the log goes through the classes, the calls and their end. -/
theorem build_of_addMethods {c : Classification} {m : Model} {b : Builder}
    (h : addMethods c (addClasses (start c) m.classes).1 m.methods = .ok b) :
    m.build c = (.ok (addCalls b m.calls).1.build.1,
      (addClasses (start c) m.classes).2 ++ (addCalls b m.calls).2.2.toList ++
        skipEvents (addCalls b m.calls).2.1 ++ (addCalls b m.calls).1.build.2 ++
        [builtEvent (addCalls b m.calls).1.build.1]) := by
  unfold build
  show (match addMethods c (addClasses (start c) m.classes).1 m.methods with
    | .error e => _
    | .ok b => _ : Except DuplicateMethod Program × List Event) = _
  rw [h]
  rfl

/-- Methods with distinct signatures are accepted after the classes.  The builder is then
consistent, with the outlines of the model's methods, no calls yet and the given patterns. -/
theorem exists_addMethods (c : Classification) (m : Model)
    (hdistinct : (m.methods.map MethodEntry.signature).Nodup) :
    ∃ b : Builder, addMethods c (addClasses (start c) m.classes).1 m.methods = .ok b ∧
      b.Consistent ∧ b.outlines = m.methods.map (m.outline c) ∧ b.calls = #[] ∧
      b.synthetic = c.syntheticEntryClasses := by
  obtain ⟨hcons, hdecl, hmethods, hindex, hcalls, hsynthetic⟩ :=
    addClasses_spec (consistent_start c) m.classes
  have hnew : ∀ e ∈ m.methods,
      (addClasses (start c) m.classes).1.methodIndex[e.signature]? = none := by
    intro e _
    rw [hindex]
    exact Std.HashMap.getElem?_empty
  obtain ⟨b, hok, hb, houtlines, hcalls', hsynthetic'⟩ := addMethods_spec c hcons hdistinct hnew
  refine ⟨b, hok, hb, ?_, hcalls'.trans hcalls, hsynthetic'.trans hsynthetic⟩
  rw [houtlines, Builder.outlines, hmethods]
  refine List.map_congr_left fun e _ => ?_
  rw [hdecl, declared_start, Option.none_or]
  rfl

/-- The builder of a model with distinct signatures: consistent, with the outlines of the model's
methods, the calls between known signatures, and the given patterns. -/
theorem exists_builder (c : Classification) (m : Model)
    (hdistinct : (m.methods.map MethodEntry.signature).Nodup) :
    ∃ b : Builder, (m.build c).1 = .ok b.build.1 ∧ b.Consistent ∧
      b.outlines = m.methods.map (m.outline c) ∧
      b.calls.toList = (m.calls.filterMap fun e => b.callBetween? e.caller e.callee) ∧
      b.synthetic = c.syntheticEntryClasses := by
  obtain ⟨b, hok, hb, houtlines, hcalls, hsynthetic⟩ := exists_addMethods c m hdistinct
  refine ⟨(addCalls b m.calls).1, ?_, ?_⟩
  · rw [build_fst, hok]
  · rw [addCalls_spec]
    refine ⟨⟨hb.classes, hb.methods, hb.owners⟩, houtlines, ?_, hsynthetic⟩
    show (b.calls ++ m.calls.filterMap fun e => b.callBetween? e.caller e.callee).toList = _
    rw [Array.toList_appendList, hcalls]
    rfl

/-- Where two lists have the same images, each place of the one has its partner in the other. -/
theorem getElem?_of_map_eq {α β γ : Type} {f : α → γ} {g : β → γ} {l : List α} {l' : List β}
    (h : l.map f = l'.map g) {i : Nat} {a : α} (ha : l[i]? = some a) :
    ∃ a', l'[i]? = some a' ∧ f a = g a' := by
  have hi : (l'.map g)[i]? = some (f a) := by
    rw [← h, List.getElem?_map, ha, Option.map_some]
  rw [List.getElem?_map, Option.map_eq_some_iff] at hi
  obtain ⟨a', ha', heq⟩ := hi
  exact ⟨a', ha', heq.symm⟩

/-- A signature is known by the place of its method in the model. -/
theorem methodId_eq_some {c : Classification} {m : Model} {b : Builder} (hb : b.Consistent)
    (houtlines : b.outlines = m.methods.map (m.outline c)) {signature : String} {x : MethodId} :
    b.methodId signature = some x ↔ ∃ e, m.methods[x]? = some e ∧ e.signature = signature := by
  rw [Builder.methodId, hb.methods signature x]
  constructor
  · rintro ⟨method, hmethod, hsignature⟩
    rw [← Array.getElem?_toList] at hmethod
    obtain ⟨e, he, heq⟩ := getElem?_of_map_eq houtlines hmethod
    refine ⟨e, he, ?_⟩
    rw [← hsignature]
    exact (congrArg Outline.signature heq).symm
  · rintro ⟨e, he, hsignature⟩
    obtain ⟨method, hmethod, heq⟩ := getElem?_of_map_eq houtlines.symm he
    rw [Array.getElem?_toList] at hmethod
    refine ⟨method, hmethod, ?_⟩
    rw [← hsignature]
    exact (congrArg Outline.signature heq).symm

/-- A method is at the place of its entry, and its class is that of the entry's class name. -/
theorem exists_method_of_entry {c : Classification} {m : Model} {b : Builder}
    (houtlines : b.outlines = m.methods.map (m.outline c)) {x : MethodId} {e : MethodEntry}
    (he : m.methods[x]? = some e) :
    ∃ method, b.methods[x]? = some method ∧
      b.classes[method.owner]? = some (m.classDecl e.className) := by
  obtain ⟨method, hmethod, heq⟩ := getElem?_of_map_eq houtlines.symm he
  rw [Array.getElem?_toList] at hmethod
  exact ⟨method, hmethod, (congrArg Outline.owner heq).symm⟩

/-- The class of a method fits no pattern exactly if the class name of its entry fits none. -/
theorem owner_fits_none_iff {c : Classification} {m : Model} {b : Builder}
    (houtlines : b.outlines = m.methods.map (m.outline c)) {x : MethodId} {e : MethodEntry}
    (he : m.methods[x]? = some e) {patterns : List String} :
    (∃ method decl, b.methods[x]? = some method ∧ b.classes[method.owner]? = some decl ∧
      Glob.fitsAny patterns decl.name = false) ↔
      ∀ pattern ∈ patterns, Glob.fits pattern e.className = false := by
  obtain ⟨method, hmethod, howner⟩ := exists_method_of_entry houtlines he
  rw [← Glob.fitsAny_eq_false, ← m.name_classDecl e.className]
  constructor
  · rintro ⟨method', decl, hmethod', hdecl, hfits⟩
    rw [hmethod, Option.some.injEq] at hmethod'
    rw [← hmethod', howner, Option.some.injEq] at hdecl
    rw [hdecl]
    exact hfits
  · intro hfits
    exact ⟨method, _, hmethod, howner, hfits⟩

/-- **A model with distinct signatures is built**, and the program is the one that the model
describes. -/
theorem exists_program (c : Classification) (m : Model)
    (hdistinct : (m.methods.map MethodEntry.signature).Nodup) :
    ∃ p, (m.build c).1 = .ok p ∧ m.Describes c p := by
  obtain ⟨b, hok, hb, houtlines, hcalls, hsynthetic⟩ := exists_builder c m hdistinct
  refine ⟨b.build.1, hok, houtlines, fun x y => ?_⟩
  have hcall : (x, y) ∈ b.calls ↔ ∃ call ∈ m.calls,
      b.methodId call.caller = some x ∧ b.methodId call.callee = some y := by
    rw [← Array.mem_toList_iff, hcalls, List.mem_filterMap]
    simp only [Builder.callBetween?_eq_some]
  have hid := @methodId_eq_some c m b hb houtlines
  rw [hb.mem_callers_build, hcall, hsynthetic]
  constructor
  · rintro ⟨⟨call, hmem, hx, hy⟩, -, hkept⟩
    obtain ⟨caller, hcaller, hcallerSig⟩ := hid.1 hx
    obtain ⟨callee, hcallee, hcalleeSig⟩ := hid.1 hy
    exact ⟨caller, callee, hcaller, hcallee, List.mem_of_getElem? hcaller,
      List.mem_of_getElem? hcallee, ⟨call, hmem, hcallerSig.symm, hcalleeSig.symm⟩,
      (owner_fits_none_iff houtlines hcaller).1 hkept⟩
  · rintro ⟨caller, callee, hcaller, hcallee, -, -, ⟨call, hmem, hcallerSig, hcalleeSig⟩, hfits⟩
    obtain ⟨method, hmethod, -⟩ := exists_method_of_entry houtlines hcallee
    exact ⟨⟨call, hmem, hid.2 ⟨caller, hcaller, hcallerSig.symm⟩,
      hid.2 ⟨callee, hcallee, hcalleeSig.symm⟩⟩, (Array.getElem?_eq_some_iff.1 hmethod).1,
      (owner_fits_none_iff houtlines hcaller).2 hfits⟩

end KeywordAudit.Model
