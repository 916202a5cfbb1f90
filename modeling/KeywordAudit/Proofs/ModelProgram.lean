import Mathlib.Data.List.Forall2
import KeywordAudit.Proofs.ModelAnalysis
import KeywordAudit.Proofs.RepeatedSignatures

/-!
# The program that a model says

Building a model is a session: its patterns, classes, methods and calls are the steps.  So the
class table of the program lists the names that the model declares, those of its class entries
before those that only its methods mention, and the package of a class is that of its first entry.
Methods and statements follow the entries one by one.
-/

namespace KeywordAudit

/-! ## Packages -/

/-- The package of a name is what stands before its last dot. -/
theorem packageOf_append (before after : String) (h : '.' ∉ after.toList) :
    packageOf (before ++ "." ++ after) = before := by
  have hname : (before ++ "." ++ after).toList = before.toList ++ '.' :: after.toList := by
    rw [String.toList_append, String.toList_append, List.append_assoc]
    rfl
  rw [packageOf, hname, Text.cutLast_append _ h]
  exact String.ofList_toList

/-- A name without a dot has no package. -/
theorem packageOf_eq_empty (name : String) (h : '.' ∉ name.toList) : packageOf name = "" := by
  rw [packageOf, Text.cutLast_eq_none_iff.2 h]

namespace Model

/-! ## Building as a session -/

/-- The step that adds the class of an entry. -/
def classStep (e : ClassEntry) : Builder.Step := .addClass (.ofEntry e.name e.package)

/-- The step that adds the method of an entry. -/
def methodStep (c : Classification) (e : MethodEntry) : Builder.Step :=
  .addMethod e.signature e.className (e.body.map (statement c))

/-- The step that adds the call of an entry. -/
def callStep (e : CallEntry) : Builder.Step := .addCallBetween e.caller e.callee

/-- The steps that a model asks for. -/
def steps (c : Classification) (m : Model) : List Builder.Step :=
  .setSynthetic c.syntheticEntryClasses ::
    (m.classes.map classStep ++ (m.methods.map (methodStep c) ++ m.calls.map callStep))

/-- Methods that are accepted are added by their steps. -/
theorem runSteps_of_addMethods {c : Classification} {b b' : Builder} {entries : List MethodEntry}
    (h : addMethods c b entries = .ok b') : b.runSteps (entries.map (methodStep c)) = b' := by
  induction entries generalizing b with
  | nil => exact Except.ok.inj h
  | cons e entries ih =>
    rw [addMethods] at h
    show (b.step (methodStep c e)).1.runSteps (entries.map (methodStep c)) = b'
    rw [methodStep, Builder.step]
    rcases Builder.addMethod_cases e.signature e.className (e.body.map (statement c)) b with
      ⟨id, -, hadd⟩ | ⟨-, hadd⟩
    · rw [hadd] at h
      exact absurd h (by simp)
    · rw [hadd] at h ⊢
      exact ih h

/-- The program of a model is that of the session of its steps. -/
theorem eq_session_of_build {c : Classification} {m : Model} {p : Program}
    (h : (m.build c).1 = .ok p) : p = (Builder.session (m.steps c)).build.1 := by
  rw [build_fst] at h
  cases hmethods : addMethods c (addClasses (start c) m.classes).1 m.methods with
  | error refusal =>
    rw [hmethods] at h
    exact absurd h (by simp)
  | ok b =>
    rw [hmethods] at h
    have hclasses : (addClasses (start c) m.classes).1 =
        (start c).runSteps (m.classes.map classStep) := by
      rw [addClasses_fst, Builder.runSteps, List.foldl_map]
      rfl
    have hcalls : (addCalls b m.calls).1 = b.runSteps (m.calls.map callStep) := by
      rw [addCalls_fst, Builder.runSteps, List.foldl_map]
      rfl
    have hsession : Builder.session (m.steps c) = (addCalls b m.calls).1 := by
      show (start c).runSteps (m.classes.map classStep ++
        (m.methods.map (methodStep c) ++ m.calls.map callStep)) = _
      rw [Builder.runSteps_append, Builder.runSteps_append, ← hclasses,
        runSteps_of_addMethods hmethods, hcalls]
    rw [hsession]
    exact (Except.ok.inj h).symm

/-- Whatever program is built, the model describes it. -/
theorem describes_of_build {c : Classification} {m : Model} {p : Program}
    (h : (m.build c).1 = .ok p) : m.Describes c p := by
  obtain ⟨q, hq, hdescribes⟩ := m.exists_program c (nodup_of_build h)
  rw [h, Except.ok.injEq] at hq
  rw [hq]
  exact hdescribes

/-! ## Classes -/

/-- Calls declare no class. -/
theorem declarationsFrom_calls (known : List String) (entries : List CallEntry) :
    Builder.declarationsFrom known (entries.map callStep) = [] := by
  induction entries generalizing known with
  | nil => rfl
  | cons e entries ih => exact ih known

/-- Methods with new and distinct signatures declare the classes that their class names say. -/
theorem declarationsFrom_methods (c : Classification) {known : List String}
    {entries : List MethodEntry} (hdistinct : (entries.map MethodEntry.signature).Nodup)
    (hnew : ∀ e ∈ entries, e.signature ∉ known) (calls : List CallEntry) :
    Builder.declarationsFrom known (entries.map (methodStep c) ++ calls.map callStep) =
      entries.map fun e => .ofName e.className := by
  induction entries generalizing known with
  | nil => exact declarationsFrom_calls known calls
  | cons e entries ih =>
    rw [List.map_cons, List.nodup_cons] at hdistinct
    have hlater : ∀ e' ∈ entries, e'.signature ∉ [e.signature] ++ known := by
      intro e' he' hmem
      rcases List.mem_cons.1 hmem with heq | hmem
      · exact hdistinct.1 (heq ▸ List.mem_map_of_mem he')
      · exact hnew e' (List.mem_cons_of_mem _ he') hmem
    rw [List.map_cons, List.cons_append, Builder.declarationsFrom, List.map_cons]
    show (if e.signature ∈ known then none else some (ClassDecl.ofName e.className)).toList ++
      Builder.declarationsFrom ([e.signature] ++ known) _ = _
    rw [if_neg (hnew e (List.mem_cons_self ..)), ih hdistinct.2 hlater]
    rfl

/-- A model declares the classes of its entries, and then those that its methods mention. -/
theorem declarations_steps (c : Classification) (m : Model)
    (hdistinct : (m.methods.map MethodEntry.signature).Nodup) :
    Builder.declarations (m.steps c) =
      (m.classes.map fun e => .ofEntry e.name e.package) ++
        m.methods.map fun e => .ofName e.className := by
  have hclasses : ∀ rest : List Builder.Step,
      Builder.declarationsFrom [] (m.classes.map classStep ++ rest) =
        (m.classes.map fun e => .ofEntry e.name e.package) ++ Builder.declarationsFrom [] rest := by
    intro rest
    induction m.classes with
    | nil => rfl
    | cons e entries ih =>
      rw [List.map_cons, List.map_cons, List.cons_append, List.cons_append, ← ih]
      rfl
  have hmethods := declarationsFrom_methods c hdistinct (fun _ _ => List.not_mem_nil) m.calls
  rw [← hmethods]
  exact hclasses _

/-- The class names of the program. -/
theorem classNames_of_build {c : Classification} {m : Model} {p : Program}
    (hdistinct : (m.methods.map MethodEntry.signature).Nodup) (h : (m.build c).1 = .ok p) :
    p.classes.toList.map ClassDecl.name =
      distinct (m.classes.map ClassEntry.name ++ m.methods.map MethodEntry.className) := by
  rw [eq_session_of_build h]
  show (Builder.session (m.steps c)).classNames = _
  rw [Builder.classNames_session, declarations_steps c m hdistinct, List.map_append, List.map_map,
    List.map_map]
  rfl

/-- The first class that a model declares under a name is the class of the name. -/
theorem eq_classDecl_of_declarations {c : Classification} {m : Model}
    (hdistinct : (m.methods.map MethodEntry.signature).Nodup) {name : String} {d : ClassDecl}
    (h : (Builder.declarations (m.steps c)).find? (fun e => e.name = name) = some d) :
    d = m.classDecl name := by
  rw [declarations_steps c m hdistinct, List.find?_append, List.find?_map] at h
  unfold classDecl
  have hentries : m.classes.find? ((fun d : ClassDecl => decide (d.name = name)) ∘
      fun e => ClassDecl.ofEntry e.name e.package) = m.classes.find? fun e => e.name = name := rfl
  rw [hentries] at h
  cases hentry : m.classes.find? fun e => e.name = name with
  | some e =>
    rw [hentry, Option.map_some, Option.some_or, Option.some.injEq] at h
    exact h.symm
  | none =>
    -- only methods mention the name, and they say no package
    rw [hentry, Option.map_none, Option.none_or] at h
    have hname := List.find?_some h
    rw [decide_eq_true_eq] at hname
    obtain ⟨e, -, rfl⟩ := List.mem_map.1 (List.mem_of_find?_eq_some h)
    rw [← hname]
    rfl

/-- The package of the class of a name is that of the first entry, or else what the name says. -/
theorem package_classDecl (m : Model) (name : String) :
    (m.classDecl name).package =
      ((m.classes.find? fun e => e.name = name).bind ClassEntry.package).getD
        (packageOf name) := by
  unfold classDecl
  cases hentry : m.classes.find? fun e => e.name = name with
  | none => rfl
  | some e =>
    have hname := List.find?_some hentry
    rw [decide_eq_true_eq] at hname
    rw [Option.map_some, Option.getD_some, Option.bind_some, ← hname]
    rfl

/-- The classes of the program are those of their names. -/
theorem eq_classDecl_of_build {c : Classification} {m : Model} {p : Program}
    (hdistinct : (m.methods.map MethodEntry.signature).Nodup) (h : (m.build c).1 = .ok p)
    {d : ClassDecl} (hd : d ∈ p.classes) : d = m.classDecl d.name := by
  rw [eq_session_of_build h] at hd
  obtain ⟨id, hid⟩ := Array.mem_iff_getElem?.1 hd
  refine eq_classDecl_of_declarations (c := c) hdistinct ?_
  rw [← Builder.declared_session]
  exact (Builder.consistent_session (m.steps c)).declared_eq_some.2 ⟨rfl, id, hid⟩

/-! ## Methods and statements -/

/-- A flag of a call holds: it is given as true, or it is not given and the class of the target
fits a pattern. -/
def FlagHolds (patterns : List String) (target : String) (given : Option Bool) : Prop :=
  given = some true ∨ given = none ∧ ∃ name, Descriptor.classOf? target = some name ∧
    ∃ pattern ∈ patterns, Glob.fits pattern name = true

/-- A call is the one that an entry says. -/
structure IsCallOf (c : Classification) (entry : InvocationEntry) (call : Invocation) : Prop where
  target : call.target = entry.target
  interesting : call.interesting = true ↔
    FlagHolds c.interestingApis entry.target entry.interesting
  library : call.library = true ↔ FlagHolds c.libraryPackages entry.target entry.library

/-- A statement is the one that an entry says. -/
structure IsStatementOf (c : Classification) (entry : StatementEntry) (s : Statement) : Prop where
  text : s.text = entry.text
  invocation : Option.Rel (IsCallOf c) entry.invocation s.invocation

/-- A method is the one that an entry says, in a class of the given table. -/
structure IsMethodOf (c : Classification) (classes : Array ClassDecl) (entry : MethodEntry)
    (method : Method) : Prop where
  signature : method.signature = entry.signature
  owner : (classes[method.owner]?).map ClassDecl.name = some entry.className
  body : List.Forall₂ (IsStatementOf c) entry.body method.body

/-- What is said explicitly goes before the patterns. -/
theorem getD_targetFits_iff {patterns : List String} {target : String} {given : Option Bool} :
    given.getD (Classification.targetFits patterns target) = true ↔
      FlagHolds patterns target given := by
  unfold FlagHolds
  cases given with
  | some flag => simp
  | none =>
    rw [Option.getD_none, Classification.targetFits, Option.any_eq_true]
    simp only [Glob.fitsAny, List.any_eq_true, reduceCtorEq, false_or, true_and]

theorem isCallOf_invocation (c : Classification) (entry : InvocationEntry) :
    IsCallOf c entry (c.invocation entry.target entry.interesting entry.library) where
  target := rfl
  interesting := getD_targetFits_iff
  library := getD_targetFits_iff

theorem isStatementOf_statement (c : Classification) (entry : StatementEntry) :
    IsStatementOf c entry (statement c entry) where
  text := rfl
  invocation := by
    unfold statement
    cases entry.invocation with
    | none => exact .none
    | some i => exact .some (isCallOf_invocation c i)

theorem forall₂_isStatementOf (c : Classification) (entries : List StatementEntry) :
    List.Forall₂ (IsStatementOf c) entries (entries.map (statement c)) := by
  rw [List.forall₂_map_right_iff, List.forall₂_same]
  intro entry _
  exact isStatementOf_statement c entry

namespace Describes

variable {c : Classification} {m : Model} {p : Program} (h : m.Describes c p)

include h

/-- The methods of the program are those of the entries, one by one. -/
theorem forall₂_isMethodOf : List.Forall₂ (IsMethodOf c p.classes) m.methods p.methods.toList := by
  have houtlines : List.Forall₂ (fun e method => m.outline c e = method.outline p.classes)
      m.methods p.methods.toList := by
    rw [← List.forall₂_map_left_iff (R := fun o method => o = Method.outline p.classes method),
      ← List.forall₂_map_right_iff (R := Eq), List.forall₂_eq_eq_eq]
    exact h.outlines.symm
  refine houtlines.imp fun e method heq => ?_
  have hbody : method.body = e.body.map (statement c) := (congrArg Outline.body heq).symm
  have howner : p.classes[method.owner]? = some (m.classDecl e.className) :=
    (congrArg Outline.owner heq).symm
  refine ⟨(congrArg Outline.signature heq).symm, ?_, ?_⟩
  · rw [howner, Option.map_some, name_classDecl]
  · rw [hbody]
    exact forall₂_isStatementOf c e.body

/-- The statements of the program are as many as the entries have. -/
theorem statementCount_eq : p.statementCount = (m.methods.flatMap MethodEntry.body).length := by
  calc p.statementCount
      = ((p.methods.toList.map (Method.outline p.classes)).map fun o => o.body.length).sum := by
        rw [Program.statementCount, List.sum_eq_foldr, List.foldr_map, List.foldr_map]
        rfl
    _ = (m.methods.map fun e => e.body.length).sum := by
        rw [h.outlines, List.map_map]
        simp only [Function.comp_def, outline, List.length_map]
    _ = (m.methods.flatMap MethodEntry.body).length := List.length_flatMap.symm

end Describes

/-- **The program of a model.**  A model with distinct signatures is built.  The classes are the
distinct names of its class entries and then of its methods, in order of first appearance, each in
the package of its first entry, or where there is none in the one before the last dot of its name.
The methods are those of the entries, one by one, with their class names and statements; flags are
kept where they are given and else read off the patterns. -/
theorem build_exact (c : Classification) (m : Model)
    (hdistinct : (m.methods.map MethodEntry.signature).Nodup) :
    ∃ p, (m.build c).1 = .ok p ∧
      p.classes.toList.map ClassDecl.name =
        distinct (m.classes.map ClassEntry.name ++ m.methods.map MethodEntry.className) ∧
      (∀ d ∈ p.classes, d.package =
        ((m.classes.find? fun e => e.name = d.name).bind ClassEntry.package).getD
          (packageOf d.name)) ∧
      (∀ before after : String, '.' ∉ after.toList → packageOf (before ++ "." ++ after) = before) ∧
      (∀ name : String, '.' ∉ name.toList → packageOf name = "") ∧
      List.Forall₂ (IsMethodOf c p.classes) m.methods p.methods.toList ∧
      p.statementCount = (m.methods.flatMap MethodEntry.body).length := by
  obtain ⟨p, hok, hp⟩ := m.exists_program c hdistinct
  refine ⟨p, hok, classNames_of_build hdistinct hok, fun d hd => ?_, packageOf_append,
    packageOf_eq_empty, hp.forall₂_isMethodOf, hp.statementCount_eq⟩
  rw [← package_classDecl, ← eq_classDecl_of_build hdistinct hok hd]

/-- A class that is declared twice with different packages, one that only a method mentions, and a
call whose flags are left to the patterns in part. -/
def redeclaredModel : Model where
  classes := [⟨"a.Main", some "app"⟩, ⟨"Bare", none⟩, ⟨"a.Main", some "late"⟩]
  methods := [
    ⟨"<b.Net: void send()>", "b.Net",
      [⟨"the key", some ⟨"<java.net.URL: void open()>", none, some true⟩⟩, ⟨"return", none⟩]⟩,
    ⟨"<a.Main: void run()>", "a.Main", []⟩]

/-- The first package counts, and the call is interesting because its target fits a pattern. -/
theorem build_redeclaredModel :
    (redeclaredModel.methods.map MethodEntry.signature).Nodup ∧
    ∃ p, (redeclaredModel.build {}).1 = .ok p ∧
      p.classes.toList.map ClassDecl.name = ["a.Main", "Bare", "b.Net"] ∧
      (∀ d ∈ p.classes, d.name = "a.Main" → d.package = "app") ∧
      (∀ d ∈ p.classes, d.name = "b.Net" → d.package = "b") ∧
      p.statementCount = 2 ∧
      ∃ first rest s more call, p.methods.toList = first :: rest ∧ first.body = s :: more ∧
        s.invocation = some call ∧ call.interesting = true ∧ call.library = true := by
  have hdistinct : (redeclaredModel.methods.map MethodEntry.signature).Nodup := by decide
  obtain ⟨p, hok, hnames, hpackages, -, -, hmethods, hcount⟩ :=
    build_exact {} redeclaredModel hdistinct
  refine ⟨hdistinct, p, hok, ?_, ?_, ?_, ?_, ?_⟩
  · rw [hnames]
    decide
  · intro d hd hname
    rw [hpackages d hd, hname]
    decide
  · intro d hd hname
    rw [hpackages d hd, hname]
    decide
  · rw [hcount]
    decide
  · obtain ⟨first, rest, hfirst, -, hlist⟩ := List.forall₂_cons_left_iff.1 hmethods
    obtain ⟨s, more, hs, -, hbody⟩ := List.forall₂_cons_left_iff.1 hfirst.body
    have hinvocation := hs.invocation
    generalize hcall : s.invocation = invocation at hinvocation
    cases hinvocation with
    | @some _ call hof =>
      refine ⟨first, rest, s, more, call, hlist, hbody, hcall, hof.interesting.2 (.inr ⟨rfl, ?_⟩),
        hof.library.2 (.inl rfl)⟩
      exact ⟨"java.net.URL", by decide, "java.*", by decide, by decide⟩

end Model
end KeywordAudit
