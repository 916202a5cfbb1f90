import KeywordAudit.Proofs.SessionCalls

/-!
# Steps that fail

Two kinds of steps can fail: a method whose signature is taken is refused, and a call between
signatures that are not both known is skipped.  Either way the builder stays as it was, down to
the class that the refused method would have brought in.  So a session without its failed steps is
as good as the whole: every other step gets the same answer, and the same program comes out.
-/

namespace KeywordAudit.Builder

variable {b : Builder}

/-! ## One step -/

/-- An answer that tells of a failure: a method was refused, or a call was not recorded. -/
def Reply.isFailure : Reply → Bool
  | .refused _ => true
  | .recorded known => !known
  | _ => false

/-- Where a method is refused, the answer names its signature and the builder is what it was. -/
theorem addMethod_of_error {signature className : String} {body : List Statement}
    {e : DuplicateMethod} (h : (b.addMethod signature className body).2 = .error e) :
    e = ⟨signature⟩ ∧ (b.addMethod signature className body).1 = b := by
  rcases addMethod_cases signature className body b with ⟨id, -, hadd⟩ | ⟨-, hadd⟩
  · rw [hadd] at h ⊢
    exact ⟨(Except.error.inj h).symm, rfl⟩
  · rw [hadd] at h
    exact absurd h (by simp)

/-- Where a call is skipped, the builder is what it was. -/
theorem addCallBetween_of_skipped {caller callee : String}
    (h : (b.addCallBetween caller callee).2.1 = false) :
    (b.addCallBetween caller callee).1 = b := by
  rcases addCallBetween_cases b caller callee with ⟨x, y, -, hadd⟩ | ⟨-, hadd⟩
  · rw [hadd] at h
    exact absurd h (by simp)
  · rw [hadd]

/-- A step that fails leaves the builder as it was. -/
theorem step_of_failure {s : Step} (h : (b.step s).2.isFailure = true) : (b.step s).1 = b := by
  cases s with
  | setSynthetic patterns => exact absurd h (by simp [step, Reply.isFailure])
  | addClass c => exact absurd h (by simp [step, Reply.isFailure])
  | addMethod signature className body =>
    rcases addMethod_cases signature className body b with ⟨id, -, hadd⟩ | ⟨-, hadd⟩
    · rw [step, hadd]
    · rw [step, hadd] at h
      exact absurd h (by simp [Reply.isFailure])
  | addCall caller callee => exact absurd h (by simp [step, Reply.isFailure])
  | addCallBetween caller callee =>
    apply addCallBetween_of_skipped
    simpa [step, Reply.isFailure] using h

/-! ## Methods that were added -/

/-- A step adds a method to the builder: it is accepted, and the answer is its number. -/
inductive Step.Adds (b : Builder) : Step → String → MethodId → Prop where
  | accepted {signature className : String} {body : List Statement} {id : MethodId} :
      (b.step (.addMethod signature className body)).2 = .methodId id →
      Adds b (.addMethod signature className body) signature id

/-- A step enters the signature of the method that it adds, and no other. -/
theorem methodIndex_step {s : Step} {signature : String} {id : MethodId} :
    (b.step s).1.methodIndex[signature]? = some id ↔
      b.methodIndex[signature]? = some id ∨ s.Adds b signature id := by
  have hframe : ∀ index : Std.HashMap String MethodId, index = b.methodIndex →
      (¬ s.Adds b signature id) → (index[signature]? = some id ↔
        b.methodIndex[signature]? = some id ∨ s.Adds b signature id) := by
    intro index hindex hnot
    rw [hindex]
    exact (or_iff_left hnot).symm
  cases s with
  | setSynthetic patterns => exact hframe _ rfl (by rintro ⟨⟩)
  | addClass c => exact hframe _ (addClass_frame c).2.1 (by rintro ⟨⟩)
  | addMethod signature' className body =>
    cases hid : b.methodIndex[signature']? with
    | some id' =>
      apply hframe
      · rw [step_addMethod_of_known hid]
      · rintro ⟨hreply⟩
        rw [step_addMethod_of_known hid] at hreply
        exact absurd hreply (by simp)
    | none =>
      have hadds : (Step.addMethod signature' className body).Adds b signature id ↔
          signature' = signature ∧ b.methods.size = id := by
        constructor
        · rintro ⟨hreply⟩
          rw [step_addMethod_of_new hid, Reply.methodId.injEq] at hreply
          exact ⟨rfl, hreply⟩
        · rintro ⟨rfl, rfl⟩
          exact .accepted (by rw [step_addMethod_of_new hid])
      rw [hadds, step_addMethod_of_new hid, (withMethodIn_frame signature' className body).1,
        Std.HashMap.getElem?_insert]
      by_cases hsig : signature' = signature
      · have hnone : b.methodIndex[signature]? ≠ some id := by
          rw [← hsig, hid]
          simp
        rw [if_pos (beq_iff_eq.2 hsig), Option.some.injEq, or_iff_right hnone]
        exact (and_iff_right hsig).symm
      · rw [beq_eq_false_iff_ne.2 hsig, if_neg (by decide)]
        exact (or_iff_left fun h => hsig h.1).symm
  | addCall caller callee => exact hframe _ rfl (by rintro ⟨⟩)
  | addCallBetween caller callee =>
    apply hframe
    · rw [step_addCallBetween]
    · rintro ⟨⟩

/-- The signatures that a builder knows are those of the methods that were added in the session,
with the numbers that were given out. -/
theorem methodIndex_session {steps : List Step} {signature : String} {id : MethodId} :
    (session steps).methodIndex[signature]? = some id ↔
      ∃ before s, before ++ [s] <+: steps ∧ s.Adds (session before) signature id := by
  have hempty : ¬ empty.methodIndex[signature]? = some id := by simp [empty]
  exact session_iff_exists_step (P := fun b => b.methodIndex[signature]? = some id)
    (Q := fun b s => s.Adds b signature id) hempty fun _ _ => methodIndex_step

/-- A method of the signature was added in the session: some step added it. -/
def WasAdded (steps : List Step) (signature : String) : Prop :=
  ∃ id before s, before ++ [s] <+: steps ∧ s.Adds (session before) signature id

theorem wasAdded_iff {steps : List Step} {signature : String} :
    WasAdded steps signature ↔ ∃ id, (session steps).methodIndex[signature]? = some id := by
  simp only [WasAdded, methodIndex_session]

/-- A method is refused exactly if one of its signature was added before. -/
theorem addMethod_fails_iff {steps : List Step} (signature className : String)
    (body : List Statement) :
    (∃ e, ((session steps).addMethod signature className body).2 = .error e) ↔
      WasAdded steps signature := by
  rw [wasAdded_iff]
  rcases addMethod_cases signature className body (session steps) with
    ⟨id, hid, hadd⟩ | ⟨hid, hadd⟩
  · rw [hadd, hid]
    exact iff_of_true ⟨_, rfl⟩ ⟨id, rfl⟩
  · rw [hadd, hid]
    exact iff_of_false (by simp) (by simp)

/-- A call is skipped exactly if one of its signatures was not added before. -/
theorem addCallBetween_fails_iff {steps : List Step} (caller callee : String) :
    ((session steps).addCallBetween caller callee).2.1 = false ↔
      ¬ (WasAdded steps caller ∧ WasAdded steps callee) := by
  have hknown : WasAdded steps caller ∧ WasAdded steps callee ↔
      ∃ x y, (session steps).callBetween? caller callee = some (x, y) := by
    simp only [wasAdded_iff, callBetween?_eq_some, methodId, exists_and_left, exists_and_right]
  rw [hknown]
  rcases addCallBetween_cases (session steps) caller callee with
    ⟨x, y, hcall, hadd⟩ | ⟨hcall, hadd⟩
  · rw [hadd, hcall]
    exact iff_of_false (by simp) (not_not_intro ⟨x, y, rfl⟩)
  · rw [hadd, hcall]
    exact iff_of_true rfl (by simp)

/-! ## Sessions without their failed steps -/

/-- Steps that are taken one after another, each with its answer. -/
def transcript (b : Builder) : List Step → List (Step × Reply)
  | [] => []
  | s :: steps => (s, (b.step s).2) :: transcript (b.step s).1 steps

/-- The entries of a transcript that tell of no failure. -/
def successes (b : Builder) (steps : List Step) : List (Step × Reply) :=
  (b.transcript steps).filter fun entry => !entry.2.isFailure

theorem successes_cons_of_failure {s : Step} (h : (b.step s).2.isFailure = true)
    (steps : List Step) : b.successes (s :: steps) = b.successes steps := by
  rw [successes, transcript, List.filter_cons_of_neg (by simp [h]), step_of_failure h, successes]

theorem successes_cons_of_success {s : Step} (h : (b.step s).2.isFailure = false)
    (steps : List Step) :
    b.successes (s :: steps) = (s, (b.step s).2) :: (b.step s).1.successes steps := by
  rw [successes, transcript, List.filter_cons_of_pos (by simp [h]), successes]

/-- The steps that succeeded lead to the same builder. -/
theorem runSteps_successes (b : Builder) (steps : List Step) :
    b.runSteps ((b.successes steps).map Prod.fst) = b.runSteps steps := by
  induction steps generalizing b with
  | nil => rfl
  | cons s steps ih =>
    show _ = (b.step s).1.runSteps steps
    cases hfailure : (b.step s).2.isFailure with
    | true =>
      rw [successes_cons_of_failure hfailure, step_of_failure hfailure]
      exact ih b
    | false =>
      rw [successes_cons_of_success hfailure]
      exact ih (b.step s).1

/-- They get the same answers again, and none of them fails. -/
theorem transcript_successes (b : Builder) (steps : List Step) :
    b.transcript ((b.successes steps).map Prod.fst) = b.successes steps := by
  induction steps generalizing b with
  | nil => rfl
  | cons s steps ih =>
    cases hfailure : (b.step s).2.isFailure with
    | true =>
      rw [successes_cons_of_failure hfailure]
      exact ih b
    | false =>
      rw [successes_cons_of_success hfailure, List.map_cons, transcript, ih]

/-- **Failed steps leave no trace.**  At any point of any session, a method is refused exactly if
one of its signature was added before, and a call between signatures is skipped exactly if one of
them was not; then tables, indexes, calls and patterns are what they were.  If the failed steps are
left out of a session, all other steps get the same answers, and the builder and the finished
program are the same. -/
theorem session_failures_traceless (steps : List Step) :
    let b := session steps
    (∀ (signature className : String) (body : List Statement),
      ((∃ e, (b.addMethod signature className body).2 = .error e) ↔ WasAdded steps signature) ∧
      ∀ e, (b.addMethod signature className body).2 = .error e →
        e = ⟨signature⟩ ∧ (b.addMethod signature className body).1 = b) ∧
    (∀ caller callee : String,
      ((b.addCallBetween caller callee).2.1 = false ↔
        ¬ (WasAdded steps caller ∧ WasAdded steps callee)) ∧
      ((b.addCallBetween caller callee).2.1 = false →
        (b.addCallBetween caller callee).1 = b)) ∧
    let succeeded := empty.successes steps
    empty.transcript (succeeded.map Prod.fst) = succeeded ∧
    session (succeeded.map Prod.fst) = b ∧
    (session (succeeded.map Prod.fst)).build = b.build := by
  intro b
  have hsame : session ((empty.successes steps).map Prod.fst) = b := runSteps_successes empty steps
  exact ⟨fun signature className body => ⟨addMethod_fails_iff signature className body, fun e =>
      addMethod_of_error⟩,
    fun caller callee => ⟨addCallBetween_fails_iff caller callee, addCallBetween_of_skipped⟩,
    transcript_successes empty steps, hsame, congrArg build hsame⟩

/-- A second method of one signature in a class of its own, a call that comes before its callee,
and then the callee and the call again. -/
def stumblingSession : List Step :=
  [.addMethod "<a.A: void a()>" "a.A" [], .addMethod "<a.A: void a()>" "z.Stray" [],
    .addCallBetween "<a.A: void a()>" "<b.B: void b()>", .addMethod "<b.B: void b()>" "b.B" [],
    .addCallBetween "<a.A: void a()>" "<b.B: void b()>", .addClass ⟨"b.B", "other"⟩]

/-- The second method is refused and the first call skipped.  Without them the class of the callee
has the same number as with them: the class of the refused method never took one. -/
theorem session_failures_stumbling :
    let before := session (stumblingSession.take 1)
    (before.addMethod "<a.A: void a()>" "z.Stray" []).2 = .error ⟨"<a.A: void a()>"⟩ ∧
    (before.addMethod "<a.A: void a()>" "z.Stray" []).1 = before ∧
    (before.addCallBetween "<a.A: void a()>" "<b.B: void b()>").2.1 = false ∧
    (before.addCallBetween "<a.A: void a()>" "<b.B: void b()>").1 = before ∧
    empty.successes stumblingSession =
      [(.addMethod "<a.A: void a()>" "a.A" [], .methodId 0),
        (.addMethod "<b.B: void b()>" "b.B" [], .methodId 1),
        (.addCallBetween "<a.A: void a()>" "<b.B: void b()>", .recorded true),
        (.addClass ⟨"b.B", "other"⟩, .classId 1)] ∧
    session [.addMethod "<a.A: void a()>" "a.A" [], .addMethod "<b.B: void b()>" "b.B" [],
      .addCallBetween "<a.A: void a()>" "<b.B: void b()>", .addClass ⟨"b.B", "other"⟩] =
      session stumblingSession := by
  intro before
  obtain ⟨hmethods, hcalls, -⟩ := session_failures_traceless (stumblingSession.take 1)
  obtain ⟨-, -, -, hsame, -⟩ := session_failures_traceless stumblingSession
  have hrefused : (before.addMethod "<a.A: void a()>" "z.Stray" []).2 =
      .error ⟨"<a.A: void a()>"⟩ := by
    simp [before, stumblingSession, session, runSteps, step, addMethod, classNamed, addClass, empty]
  have hskipped : (before.addCallBetween "<a.A: void a()>" "<b.B: void b()>").2.1 = false := by
    simp [before, stumblingSession, session, runSteps, step, addMethod, classNamed, addClass, empty,
      addCallBetween, methodId]
  have hsuccesses : empty.successes stumblingSession =
      [(.addMethod "<a.A: void a()>" "a.A" [], .methodId 0),
        (.addMethod "<b.B: void b()>" "b.B" [], .methodId 1),
        (.addCallBetween "<a.A: void a()>" "<b.B: void b()>", .recorded true),
        (.addClass ⟨"b.B", "other"⟩, .classId 1)] := by
    have hpackage : packageOf "b.B" ≠ "other" := by decide
    simp [stumblingSession, successes, transcript, step, addMethod, classNamed, addClass, empty,
      addCallBetween, addCall, methodId, Reply.isFailure, ClassDecl.ofName, hpackage]
  rw [hsuccesses] at hsame
  exact ⟨hrefused, ((hmethods _ _ _).2 _ hrefused).2, hskipped, (hcalls _ _).2 hskipped, hsuccesses,
    hsame⟩

end KeywordAudit.Builder
