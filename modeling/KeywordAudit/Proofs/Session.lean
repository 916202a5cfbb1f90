import Mathlib.Data.List.Infix
import KeywordAudit.Distinct
import KeywordAudit.Program.View
import KeywordAudit.Proofs.Builder

/-!
# Sessions of a builder

A session takes steps one after another from the empty builder on.  A step may be refused, and the
session goes on without it.  What holds after every session is proved step by step: tables and
indexes stay inverse to each other (`Consistent`), entries are appended and never change
(`Precedes`), and the class table lists what the steps declare, the first class of each name.
-/

namespace KeywordAudit.Builder

/-! ## Steps and answers -/

/-- A step of a session. -/
inductive Step where
  | setSynthetic (patterns : List String)
  | addClass (c : ClassDecl)
  | addMethod (signature className : String) (body : List Statement)
  | addCall (caller callee : MethodId)
  | addCallBetween (caller callee : String)
deriving DecidableEq, Repr

/-- The answer to a step. -/
inductive Reply where
  | done
  | classId (id : ClassId)
  | methodId (id : MethodId)
  | refused (e : DuplicateMethod)
  | recorded (known : Bool)
deriving DecidableEq, Repr

/-- Takes a step: the builder afterwards and the answer. -/
def step (b : Builder) : Step → Builder × Reply
  | .setSynthetic patterns => (b.setSynthetic patterns, .done)
  | .addClass c => ((b.addClass c).1, .classId (b.addClass c).2.1)
  | .addMethod signature className body =>
    match b.addMethod signature className body with
    | (after, .ok id) => (after, .methodId id)
    | (after, .error e) => (after, .refused e)
  | .addCall caller callee => (b.addCall caller callee, .done)
  | .addCallBetween caller callee =>
    ((b.addCallBetween caller callee).1, .recorded (b.addCallBetween caller callee).2.1)

/-- The builder after more steps. -/
def runSteps (b : Builder) (steps : List Step) : Builder :=
  steps.foldl (fun b s => (b.step s).1) b

/-- The builder at the end of a session. -/
def session (steps : List Step) : Builder := empty.runSteps steps

variable {b : Builder}

theorem runSteps_append (b : Builder) (steps more : List Step) :
    b.runSteps (steps ++ more) = (b.runSteps steps).runSteps more :=
  List.foldl_append

theorem session_concat (steps : List Step) (s : Step) :
    session (steps ++ [s]) = ((session steps).step s).1 :=
  runSteps_append empty steps [s]

/-- What happened at some step of a longer session happened before its last step or at it. -/
theorem exists_step_concat {P : List Step → Step → Prop} {steps : List Step} {s : Step} :
    (∃ before s', before ++ [s'] <+: steps ++ [s] ∧ P before s') ↔
      (∃ before s', before ++ [s'] <+: steps ∧ P before s') ∨ P steps s := by
  simp only [List.prefix_concat_iff]
  constructor
  · rintro ⟨before, s', heq | hbegin, hp⟩
    · obtain ⟨rfl, hs⟩ := List.append_inj' heq rfl
      obtain rfl := List.singleton_injective hs
      exact .inr hp
    · exact .inl ⟨before, s', hbegin, hp⟩
  · rintro (⟨before, s', hbegin, hp⟩ | hp)
    · exact ⟨before, s', .inr hbegin, hp⟩
    · exact ⟨steps, s, .inl rfl, hp⟩

/-- What does not hold of the empty builder, and what a step brings about and never undoes, holds at
the end of a session exactly if one of its steps has brought it about. -/
theorem session_iff_exists_step {P : Builder → Prop} {Q : Builder → Step → Prop}
    (hempty : ¬ P empty) (hstep : ∀ b s, P (b.step s).1 ↔ P b ∨ Q b s) {steps : List Step} :
    P (session steps) ↔ ∃ before s, before ++ [s] <+: steps ∧ Q (session before) s := by
  induction steps using List.reverseRecOn with
  | nil =>
    refine iff_of_false hempty ?_
    rintro ⟨before, s, hbegin, -⟩
    exact absurd (List.prefix_nil.1 hbegin) (by simp)
  | append_singleton steps s ih => rw [session_concat, hstep, ih, exists_step_concat]

/-- A method whose signature is known is refused and changes nothing. -/
theorem step_addMethod_of_known {signature : String} {id : MethodId}
    (hid : b.methodIndex[signature]? = some id) (className : String) (body : List Statement) :
    b.step (.addMethod signature className body) = (b, .refused ⟨signature⟩) := by
  rcases addMethod_cases signature className body b with ⟨id', -, heq⟩ | ⟨hnone, -⟩
  · rw [step, heq]
  · rw [hid] at hnone
    exact absurd hnone (by simp)

/-- A method whose signature is new is put at the end. -/
theorem step_addMethod_of_new {signature : String} (hnew : b.methodIndex[signature]? = none)
    (className : String) (body : List Statement) :
    b.step (.addMethod signature className body) =
      (b.withMethodIn signature className body, .methodId b.methods.size) := by
  rw [step, addMethod_of_new className body hnew]

/-- A call between signatures adds at most a call. -/
theorem step_addCallBetween (b : Builder) (caller callee : String) :
    (b.step (.addCallBetween caller callee)).1 =
      { b with calls := b.calls ++ (b.callBetween? caller callee).toList } :=
  addCallBetween_eq b caller callee

/-! ## Tables and indexes -/

/-- A step keeps tables and indexes inverse to each other. -/
theorem Consistent.step (h : b.Consistent) (s : Step) : (b.step s).1.Consistent := by
  cases s with
  | setSynthetic patterns => exact ⟨h.classes, h.methods, h.owners⟩
  | addClass c => exact h.addClass c
  | addMethod signature className body =>
    cases hid : b.methodIndex[signature]? with
    | some id =>
      rw [step_addMethod_of_known hid]
      exact h
    | none =>
      rw [step_addMethod_of_new hid]
      exact h.withMethodIn className body hid
  | addCall caller callee => exact ⟨h.classes, h.methods, h.owners⟩
  | addCallBetween caller callee =>
    rw [step_addCallBetween]
    exact ⟨h.classes, h.methods, h.owners⟩

theorem Consistent.runSteps (h : b.Consistent) (steps : List Step) :
    (b.runSteps steps).Consistent := by
  induction steps generalizing b with
  | nil => exact h
  | cons s steps ih => exact ih (h.step s)

/-- Tables and indexes are inverse to each other after every session. -/
theorem consistent_session (steps : List Step) : (session steps).Consistent :=
  consistent_empty.runSteps steps

/-- A finished program finds the methods that its builder finds. -/
theorem Consistent.findMethod_build (h : b.Consistent) (signature : String) :
    b.build.1.findMethod signature = b.methodId signature :=
  h.methods.getElem?_eq (indexed_signatureIndex h.methods.nodup) signature

/-! ## Numbers that were given out -/

/-- The entries of a builder are those of a later one, with more behind them. -/
structure Precedes (b later : Builder) : Prop where
  classes : ∀ (id : ClassId) (c : ClassDecl), b.classes[id]? = some c → later.classes[id]? = some c
  methods : ∀ (id : MethodId) (m : Method), b.methods[id]? = some m → later.methods[id]? = some m

theorem Precedes.refl (b : Builder) : b.Precedes b :=
  ⟨fun _ _ h => h, fun _ _ h => h⟩

theorem Precedes.trans {b₁ b₂ b₃ : Builder} (h₁ : b₁.Precedes b₂) (h₂ : b₂.Precedes b₃) :
    b₁.Precedes b₃ :=
  ⟨fun id c h => h₂.classes id c (h₁.classes id c h),
    fun id m h => h₂.methods id m (h₁.methods id m h)⟩

theorem precedes_addClass (b : Builder) (c : ClassDecl) : b.Precedes (b.addClass c).1 := by
  constructor
  · intro id d hd
    rw [getElem?_classes_addClass c (Array.getElem?_eq_some_iff.1 hd).1]
    exact hd
  · intro id m hm
    rw [(addClass_frame c).1]
    exact hm

theorem precedes_withMethod (b : Builder) (m : Method) : b.Precedes (b.withMethod m) := by
  constructor
  · intro id c hc
    exact hc
  · intro id m' hm'
    have hne : id ≠ b.methods.size := Nat.ne_of_lt (Array.getElem?_eq_some_iff.1 hm').1
    show (b.methods.push m)[id]? = some m'
    rw [Array.getElem?_push, if_neg hne]
    exact hm'

/-- A step changes no entry. -/
theorem precedes_step (b : Builder) (s : Step) : b.Precedes (b.step s).1 := by
  cases s with
  | setSynthetic patterns => exact ⟨fun _ _ h => h, fun _ _ h => h⟩
  | addClass c => exact precedes_addClass b c
  | addMethod signature className body =>
    cases hid : b.methodIndex[signature]? with
    | some id =>
      rw [step_addMethod_of_known hid]
      exact .refl b
    | none =>
      rw [step_addMethod_of_new hid]
      exact (precedes_addClass b (.ofName className)).trans (precedes_withMethod _ _)
  | addCall caller callee => exact ⟨fun _ _ h => h, fun _ _ h => h⟩
  | addCallBetween caller callee =>
    rw [step_addCallBetween]
    exact ⟨fun _ _ h => h, fun _ _ h => h⟩

theorem precedes_runSteps (b : Builder) (steps : List Step) : b.Precedes (b.runSteps steps) := by
  induction steps generalizing b with
  | nil => exact .refl b
  | cons s steps ih => exact (precedes_step b s).trans (ih _)

/-- What a session has entered stays through the rest of it. -/
theorem precedes_session {before steps : List Step} (h : before <+: steps) :
    (session before).Precedes (session steps) := by
  obtain ⟨rest, rfl⟩ := h
  rw [session, session, runSteps_append]
  exact precedes_runSteps _ rest

/-! ## What the steps declare -/

/-- The class that a step declares where the given signatures are known: the one that it adds, or
that of a method with a new signature, in the package that the name says. -/
def Step.declares (known : List String) : Step → Option ClassDecl
  | .addClass c => some c
  | .addMethod signature className _ =>
    if signature ∈ known then none else some (.ofName className)
  | _ => none

/-- The signature that is known after a step, if it is about a method. -/
def Step.signature? : Step → Option String
  | .addMethod signature _ _ => some signature
  | _ => none

/-- The classes that steps declare one after another, where the given signatures are known. -/
def declarationsFrom (known : List String) : List Step → List ClassDecl
  | [] => []
  | s :: steps =>
    (s.declares known).toList ++ declarationsFrom (s.signature?.toList ++ known) steps

/-- The classes that a session declares, in order and with repetitions. -/
def declarations (steps : List Step) : List ClassDecl := declarationsFrom [] steps

/-- The signatures of the methods are the given ones. -/
def Knows (b : Builder) (known : List String) : Prop :=
  ∀ signature, signature ∈ known ↔ ∃ id, b.methodIndex[signature]? = some id

theorem knows_empty : empty.Knows [] := by
  intro signature
  simp [empty]

/-- The builder with the class that is declared, if there is one. -/
def declare (b : Builder) : Option ClassDecl → Builder
  | none => b
  | some c => (b.addClass c).1

variable {known : List String}

/-- After a step about a method its signature is known, whether it was refused or not. -/
theorem Knows.step (hk : b.Knows known) (s : Step) :
    (b.step s).1.Knows (s.signature?.toList ++ known) := by
  intro signature
  cases s with
  | setSynthetic patterns => exact hk signature
  | addClass c =>
    have hindex : (b.step (.addClass c)).1.methodIndex = b.methodIndex := (addClass_frame c).2.1
    rw [hindex]
    exact hk signature
  | addMethod signature' className body =>
    have hmem : signature ∈ (Step.addMethod signature' className body).signature?.toList ++ known ↔
        signature = signature' ∨ ∃ id, b.methodIndex[signature]? = some id := by
      rw [← hk signature]
      exact List.mem_cons
    rw [hmem]
    cases hid : b.methodIndex[signature']? with
    | some id =>
      rw [step_addMethod_of_known hid]
      constructor
      · rintro (rfl | h)
        · exact ⟨id, hid⟩
        · exact h
      · exact .inr
    | none =>
      rw [step_addMethod_of_new hid, (withMethodIn_frame signature' className body).1,
        Std.HashMap.getElem?_insert]
      by_cases hsig : signature' = signature
      · rw [if_pos (beq_iff_eq.2 hsig)]
        exact ⟨fun _ => ⟨_, rfl⟩, fun _ => .inl hsig.symm⟩
      · rw [beq_eq_false_iff_ne.2 hsig, if_neg (by decide)]
        exact or_iff_right (Ne.symm hsig)
  | addCall caller callee => exact hk signature
  | addCallBetween caller callee =>
    rw [step_addCallBetween]
    exact hk signature

/-- A step does to the classes what declaring its class does. -/
theorem Knows.step_classes (hk : b.Knows known) (s : Step) :
    (b.step s).1.classes = (b.declare (s.declares known)).classes ∧
      (b.step s).1.classIndex = (b.declare (s.declares known)).classIndex := by
  cases s with
  | setSynthetic patterns => exact ⟨rfl, rfl⟩
  | addClass c => exact ⟨rfl, rfl⟩
  | addMethod signature className body =>
    rw [Step.declares]
    cases hid : b.methodIndex[signature]? with
    | some id =>
      rw [step_addMethod_of_known hid, if_pos ((hk signature).2 ⟨id, hid⟩)]
      exact ⟨rfl, rfl⟩
    | none =>
      have hnew : signature ∉ known := by
        intro hmem
        obtain ⟨id, hid'⟩ := (hk signature).1 hmem
        rw [hid] at hid'
        exact absurd hid' (by simp)
      rw [step_addMethod_of_new hid, if_neg hnew]
      exact ⟨rfl, rfl⟩
  | addCall caller callee => exact ⟨rfl, rfl⟩
  | addCallBetween caller callee =>
    rw [step_addCallBetween]
    exact ⟨rfl, rfl⟩

/-- The first class of a name stays, whatever a step declares. -/
theorem Consistent.declared_step (h : b.Consistent) (hk : b.Knows known) (s : Step)
    (name : String) :
    (b.step s).1.declared name =
      (b.declared name).or ((s.declares known).toList.find? fun c => c.name = name) := by
  obtain ⟨hclasses, hindex⟩ := hk.step_classes s
  rw [declared, hclasses, hindex]
  show (b.declare (s.declares known)).declared name = _
  cases s.declares known with
  | none => rw [Option.toList_none, List.find?_nil, Option.or_none, declare]
  | some c =>
    rw [declare, h.declared_addClass, Option.toList_some, List.find?_singleton]
    by_cases hname : name = c.name
    · rw [if_pos hname, decide_eq_true hname.symm, if_pos rfl]
    · rw [if_neg hname, decide_eq_false (Ne.symm hname), if_neg (by decide)]

/-- Classes are known by the first declaration of their name. -/
theorem Consistent.declared_runSteps (h : b.Consistent) (hk : b.Knows known) (steps : List Step)
    (name : String) :
    (b.runSteps steps).declared name =
      (b.declared name).or ((declarationsFrom known steps).find? fun c => c.name = name) := by
  induction steps generalizing b known with
  | nil =>
    rw [declarationsFrom, List.find?_nil, Option.or_none]
    rfl
  | cons s steps ih =>
    show ((b.step s).1.runSteps steps).declared name = _
    rw [ih (h.step s) (hk.step s), h.declared_step hk, Option.or_assoc, declarationsFrom,
      List.find?_append]

/-- After a session a class is known by the first declaration of its name. -/
theorem declared_session (steps : List Step) (name : String) :
    (session steps).declared name = (declarations steps).find? fun c => c.name = name := by
  have hempty : empty.declared name = none := by
    show ((∅ : Std.HashMap String ClassId)[name]?).bind _ = none
    rw [Std.HashMap.getElem?_empty, Option.bind_none]
  rw [session, consistent_empty.declared_runSteps knows_empty, hempty, Option.none_or]
  rfl

/-! ## The class names in order -/

/-- The names of the classes in the order of their numbers. -/
def classNames (b : Builder) : List String := b.classes.toList.map ClassDecl.name

/-- A new class name is put at the end, and a known one is not put in again. -/
theorem Consistent.classNames_addClass (h : b.Consistent) (c : ClassDecl) :
    (b.addClass c).1.classNames = b.classNames ++ distinctFrom b.classNames [c.name] := by
  rcases addClass_cases b c with ⟨id, events, hid, heq⟩ | ⟨hnew, heq⟩
  · have hmem : c.name ∈ b.classNames := by
      obtain ⟨known, hknown, hname⟩ := (h.classes c.name id).1 hid
      rw [← hname]
      exact List.mem_map_of_mem (Array.mem_toList_iff.2 (Array.mem_of_getElem? hknown))
    rw [heq, distinctFrom, if_pos hmem, distinctFrom, List.append_nil]
  · have hmem : c.name ∉ b.classNames := by
      intro hmem
      obtain ⟨known, hknown, hname⟩ := List.mem_map.1 hmem
      obtain ⟨id, hid⟩ := List.mem_iff_getElem?.1 hknown
      rw [Array.getElem?_toList] at hid
      exact h.classes.ne_of_getElem? hnew hid hname
    rw [heq, distinctFrom, if_neg hmem, distinctFrom]
    show (b.classes.push c).toList.map ClassDecl.name = _
    rw [Array.toList_push, List.map_append, List.map_singleton]
    rfl

theorem Consistent.classNames_step (h : b.Consistent) (hk : b.Knows known) (s : Step) :
    (b.step s).1.classNames = b.classNames ++
      distinctFrom b.classNames ((s.declares known).toList.map ClassDecl.name) := by
  rw [classNames, (hk.step_classes s).1]
  show (b.declare (s.declares known)).classNames = _
  cases s.declares known with
  | none =>
    rw [Option.toList_none, List.map_nil, distinctFrom, List.append_nil]
    rfl
  | some c => exact h.classNames_addClass c

/-- The class table grows by the names that are declared and new, at their first occurrence. -/
theorem Consistent.classNames_runSteps (h : b.Consistent) (hk : b.Knows known)
    (steps : List Step) :
    (b.runSteps steps).classNames = b.classNames ++
      distinctFrom b.classNames ((declarationsFrom known steps).map ClassDecl.name) := by
  induction steps generalizing b known with
  | nil =>
    rw [declarationsFrom, List.map_nil, distinctFrom, List.append_nil]
    rfl
  | cons s steps ih =>
    show ((b.step s).1.runSteps steps).classNames = _
    rw [ih (h.step s) (hk.step s), h.classNames_step hk, declarationsFrom, List.map_append,
      distinctFrom_append, List.append_assoc]

/-- After a session the classes stand in the order in which their names were declared first. -/
theorem classNames_session (steps : List Step) :
    (session steps).classNames = distinct ((declarations steps).map ClassDecl.name) :=
  consistent_empty.classNames_runSteps knows_empty steps

/-! ## What an answer stands for -/

/-- The number that a class gets stands for the first class of its name. -/
theorem classes_of_reply {before : List Step} {c : ClassDecl} {id : ClassId}
    (hreply : ((session before).step (.addClass c)).2 = .classId id) :
    ∃ d, (session (before ++ [.addClass c])).declared c.name = some d ∧
      (session (before ++ [.addClass c])).classes[id]? = some d := by
  have hb := consistent_session before
  have hid : ((session before).addClass c).2.1 = id := by
    injection hreply
  rw [session_concat]
  show ∃ d, ((session before).addClass c).1.declared c.name = some d ∧
    ((session before).addClass c).1.classes[id]? = some d
  rw [← hid, hb.getElem?_addClass, hb.declared_addClass, if_pos rfl]
  cases (session before).declared c.name with
  | none => exact ⟨c, rfl, rfl⟩
  | some d => exact ⟨d, rfl, rfl⟩

/-- The number that a method gets stands for this method, and its class is the first of its
name. -/
theorem methods_of_reply {before : List Step} {signature className : String}
    {body : List Statement} {id : MethodId}
    (hreply : ((session before).step (.addMethod signature className body)).2 = .methodId id) :
    ∃ owner d, (session (before ++ [.addMethod signature className body])).methods[id]? =
        some ⟨signature, owner, body⟩ ∧
      (session (before ++ [.addMethod signature className body])).declared className = some d ∧
      (session (before ++ [.addMethod signature className body])).classes[owner]? = some d := by
  have hb := consistent_session before
  cases hknown : (session before).methodIndex[signature]? with
  | some id' =>
    rw [step_addMethod_of_known hknown] at hreply
    exact absurd hreply (by simp)
  | none =>
    rw [step_addMethod_of_new hknown] at hreply
    have hid : (session before).methods.size = id := by
      injection hreply
    rw [session_concat, step_addMethod_of_new hknown]
    refine ⟨((session before).addClass (.ofName className)).2.1,
      ((session before).declared className).getD (.ofName className), ?_, ?_, ?_⟩
    · show (((session before).addClass (.ofName className)).1.methods.push _)[id]? = _
      rw [(addClass_frame (.ofName className)).1, ← hid, Array.getElem?_push_size]
    · rw [hb.declared_withMethodIn, if_pos rfl]
      cases (session before).declared className with
      | none => rfl
      | some d => rfl
    · exact hb.getElem?_owner className

/-- A class that is known by its name stays so. -/
theorem declared_of_earlier {before steps : List Step} (hbegin : before <+: steps)
    {name : String} {d : ClassDecl} (hd : (session before).declared name = some d) :
    (declarations steps).find? (fun c => c.name = name) = some d := by
  obtain ⟨hname, id, hid⟩ := (consistent_session before).declared_eq_some.1 hd
  have hlater : (session steps).classes[id]? = some d :=
    (precedes_session hbegin).classes id d hid
  rw [← declared_session]
  exact (consistent_session steps).declared_eq_some.2 ⟨hname, id, hlater⟩

/-- **What every session keeps.**  Each index gives for a name the place where it stands in its
table, so no class name and no signature repeats, and methods are declared in classes of the
table.  A number that was given out for a class stands, then and ever after and in the finished
program, for the first class that was declared under the name; one that was given out for a method
stands for this method, in the first class of its class name.  The finished program finds the
methods that the builder finds, and a call is never kept for want of the caller's class: where it
is kept, the class is there and fits no pattern. -/
theorem session_tables_exact (steps : List Step) :
    let b := session steps
    let p := b.build.1
    (∀ (name : String) (id : ClassId),
      b.classIndex[name]? = some id ↔ ∃ c, b.classes[id]? = some c ∧ c.name = name) ∧
    (b.classes.toList.map ClassDecl.name).Nodup ∧
    (∀ (signature : String) (id : MethodId),
      b.methodIndex[signature]? = some id ↔
        ∃ m, b.methods[id]? = some m ∧ m.signature = signature) ∧
    (b.methods.toList.map Method.signature).Nodup ∧
    (∀ (id : MethodId) (m : Method), b.methods[id]? = some m → m.owner < b.classes.size) ∧
    (∀ (before : List Step) (c : ClassDecl) (id : ClassId), before ++ [.addClass c] <+: steps →
      ((session before).step (.addClass c)).2 = .classId id →
      ∃ d, (declarations steps).find? (fun e => e.name = c.name) = some d ∧
        ((session before).step (.addClass c)).1.classes[id]? = some d ∧
        b.classes[id]? = some d ∧ p.view.classDecl id = some d) ∧
    (∀ (before : List Step) (signature className : String) (body : List Statement) (id : MethodId),
      before ++ [.addMethod signature className body] <+: steps →
      ((session before).step (.addMethod signature className body)).2 = .methodId id →
      ∃ owner d, (declarations steps).find? (fun e => e.name = className) = some d ∧
        ((session before).step (.addMethod signature className body)).1.methods[id]? =
          some ⟨signature, owner, body⟩ ∧
        b.methods[id]? = some ⟨signature, owner, body⟩ ∧ b.classes[owner]? = some d ∧
        p.view.method id = some ⟨signature, owner, body⟩ ∧ p.view.declaringClass id = some d) ∧
    (∀ signature, p.findMethod signature = b.methodId signature) ∧
    ∀ caller callee : MethodId, b.verdict (caller, callee) = .kept ↔
      callee < b.methods.size ∧ ∃ m d, b.methods[caller]? = some m ∧
        b.classes[m.owner]? = some d ∧ Glob.fitsAny b.synthetic d.name = false := by
  intro b p
  have hb : b.Consistent := consistent_session steps
  refine ⟨hb.classes, hb.classes.nodup, hb.methods, hb.methods.nodup, hb.owners, ?_, ?_,
    hb.findMethod_build, fun caller callee => hb.verdict_eq_kept⟩
  · intro before c id hbegin hreply
    obtain ⟨d, hdecl, hd⟩ := classes_of_reply hreply
    have hlater : b.classes[id]? = some d := (precedes_session hbegin).classes id d hd
    rw [session_concat] at hd
    exact ⟨d, declared_of_earlier hbegin hdecl, hd, hlater, hlater⟩
  · intro before signature className body id hbegin hreply
    obtain ⟨owner, d, hm, hdecl, hd⟩ := methods_of_reply hreply
    have hlater : b.methods[id]? = some ⟨signature, owner, body⟩ :=
      (precedes_session hbegin).methods id _ hm
    have howner : b.classes[owner]? = some d := (precedes_session hbegin).classes owner d hd
    rw [session_concat] at hm
    refine ⟨owner, d, declared_of_earlier hbegin hdecl, hm, hlater, howner, hlater, ?_⟩
    show (b.methods[id]?).bind (fun m => b.classes[m.owner]?) = some d
    rw [hlater, Option.bind_some, howner]

/-- A method brings in its class, a second one of the same signature is refused, and the class is
added again with another package. -/
def contestedSession : List Step :=
  [.addMethod "<b.Net: void send()>" "b.Net" [], .addMethod "<b.Net: void send()>" "c.Late" [],
    .addClass ⟨"b.Net", "other"⟩, .addCall 7 0, .setSynthetic ["b.*"]]

/-- Both answers still stand for the first method and the first class at the end. -/
theorem session_tables_contested :
    ((session []).step (.addMethod "<b.Net: void send()>" "b.Net" [])).2 = .methodId 0 ∧
    (session contestedSession).build.1.view.declaringClass 0 = some ⟨"b.Net", "b"⟩ ∧
    ∃ id, ((session (contestedSession.take 2)).step (.addClass ⟨"b.Net", "other"⟩)).2 =
        .classId id ∧
      (session contestedSession).build.1.view.classDecl id = some ⟨"b.Net", "b"⟩ := by
  obtain ⟨-, -, -, -, -, hclass, hmethod, -, -⟩ := session_tables_exact contestedSession
  have hfirst : (declarations contestedSession).find? (fun e => e.name = "b.Net") =
      some ⟨"b.Net", "b"⟩ := by decide
  have hreply : ((session []).step (.addMethod "<b.Net: void send()>" "b.Net" [])).2 =
      .methodId 0 := by
    rw [step_addMethod_of_new Std.HashMap.getElem?_empty]
    rfl
  refine ⟨hreply, ?_, _, rfl, ?_⟩
  · obtain ⟨owner, d, hd, -, -, -, -, hview⟩ :=
      hmethod [] "<b.Net: void send()>" "b.Net" [] 0 ⟨_, rfl⟩ hreply
    rw [hfirst, Option.some.injEq] at hd
    rw [hview, hd]
  · obtain ⟨d, hd, -, -, hview⟩ :=
      hclass (contestedSession.take 2) ⟨"b.Net", "other"⟩ _ ⟨_, rfl⟩ rfl
    rw [hfirst, Option.some.injEq] at hd
    rw [hview, hd]

end KeywordAudit.Builder
