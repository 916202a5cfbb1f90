import Mathlib.Data.List.Forall2
import KeywordAudit.Proofs.ReportConsistency
import KeywordAudit.Proofs.ReportOrder

/-!
# What becomes of the calls of a model

Calls are sorted out at two places: a call that names an unknown signature is skipped when it is
added, and a call from a synthetic entry class is dropped when the program is finished.  Both are
told in the log, each at its own place.  Together they account for every call of the model: what is
neither skipped nor dropped is in the program, and no call is ever dropped for its numbers.
-/

namespace KeywordAudit

/-- Where the values of a kind give one result each and the others none, the results belong to the
values of that kind one by one. -/
theorem forall₂_filter_flatMap {α β : Type} {R : α → β → Prop} {kind : α → Prop}
    [DecidablePred kind] {f : α → List β} {l : List α}
    (hone : ∀ a ∈ l, kind a → ∃ b, f a = [b] ∧ R a b) (hnone : ∀ a ∈ l, ¬ kind a → f a = []) :
    List.Forall₂ R (l.filter (kind ·)) (l.flatMap f) := by
  induction l with
  | nil => exact .nil
  | cons a l ih =>
    have hrest := ih (fun a' ha' => hone a' (List.mem_cons_of_mem a ha'))
      (fun a' ha' => hnone a' (List.mem_cons_of_mem a ha'))
    rw [List.flatMap_cons]
    by_cases ha : kind a
    · obtain ⟨b, hb, hR⟩ := hone a List.mem_cons_self ha
      rw [List.filter_cons, if_pos (decide_eq_true ha), hb]
      exact .cons hR hrest
    · rw [List.filter_cons, if_neg (by simpa using ha), hnone a List.mem_cons_self ha]
      exact hrest

/-- What is on the right of related lists is related to something on the left. -/
theorem exists_of_mem_right {α β : Type} {R : α → β → Prop} {l : List α} {l' : List β}
    (h : List.Forall₂ R l l') {b : β} (hb : b ∈ l') : ∃ a ∈ l, R a b := by
  induction h with
  | nil => exact absurd hb List.not_mem_nil
  | @cons a b' l l' hR _ ih =>
    rcases List.mem_cons.1 hb with rfl | hb
    · exact ⟨a, List.mem_cons_self, hR⟩
    · obtain ⟨a', ha', hR'⟩ := ih hb
      exact ⟨a', List.mem_cons_of_mem a ha', hR'⟩

namespace Model

/-! ## The fate of a call -/

/-- A method of the signature is declared. -/
def Declares (m : Model) (signature : String) : Prop :=
  ∃ e ∈ m.methods, e.signature = signature

instance (m : Model) (signature : String) : Decidable (m.Declares signature) :=
  inferInstanceAs (Decidable (∃ e ∈ m.methods, e.signature = signature))

/-- What becomes of a call. -/
inductive CallFate where
  | skipped
  | dropped
  | kept
deriving DecidableEq, Repr

/-- A call is skipped if one of its ends is not declared.  Else it is dropped if the class of its
caller fits a synthetic entry class, and kept if it fits none. -/
def HasFate (c : Classification) (m : Model) (call : CallEntry) : CallFate → Prop
  | .skipped => ¬ (m.Declares call.caller ∧ m.Declares call.callee)
  | .dropped => m.Declares call.callee ∧ ∃ e ∈ m.methods, e.signature = call.caller ∧
      ∃ pattern ∈ c.syntheticEntryClasses, Glob.fits pattern e.className = true
  | .kept => m.Declares call.callee ∧ ∃ e ∈ m.methods, e.signature = call.caller ∧
      ∀ pattern ∈ c.syntheticEntryClasses, Glob.fits pattern e.className = false

instance (c : Classification) (m : Model) (call : CallEntry) (fate : CallFate) :
    Decidable (m.HasFate c call fate) :=
  match fate with
  | .skipped => inferInstanceAs (Decidable (¬ (_ ∧ _)))
  | .dropped => inferInstanceAs (Decidable (_ ∧ ∃ e ∈ m.methods, _ ∧ ∃ _ ∈ _, _ = _))
  | .kept => inferInstanceAs (Decidable (_ ∧ ∃ e ∈ m.methods, _ ∧ ∀ _ ∈ _, _ = _))

/-- The calls of a model that have the given fate, in order and with repetitions. -/
def callsWith (c : Classification) (m : Model) (fate : CallFate) : List CallEntry :=
  m.calls.filter (m.HasFate c · fate)

/-- An event tells that the package of a class was kept. -/
def IsPackageNote (event : Event) : Prop :=
  ∃ name given known, event = .packageKept name given known

/-- An event tells that a call was dropped: it names the class of the caller. -/
def TellsDrop (m : Model) (call : CallEntry) (event : Event) : Prop :=
  ∃ e ∈ m.methods, e.signature = call.caller ∧ event = .syntheticCallDropped e.className

/-- The program and the log of a build account for all calls of the model. -/
structure CallsAccounted (c : Classification) (m : Model) (p : Program) (events : List Event) :
    Prop where
  one_fate : ∀ call ∈ m.calls, ∃! fate, m.HasFate c call fate
  sum_fates : m.calls.length = (m.callsWith c .skipped).length + (m.callsWith c .dropped).length +
    (m.callsWith c .kept).length
  /-- After notes about classes there is one event for each skipped call, then their number if
  there are any, then one event for each dropped call, then the size of the program, and nothing
  else. -/
  log : ∃ classNotes dropNotes,
    (∀ event ∈ classNotes, IsPackageNote event) ∧
    List.Forall₂ m.TellsDrop (m.callsWith c .dropped) dropNotes ∧
    events = classNotes ++
      (m.callsWith c .skipped).map (fun call => .callSkipped call.caller call.callee) ++
      (if m.callsWith c .skipped = [] then [] else
        [.callsSkipped (m.callsWith c .skipped).length]) ++
      dropNotes ++ [builtEvent p]
  callsSkipped : ∀ n, .callsSkipped n ∈ events ↔ 0 < n ∧ n = (m.callsWith c .skipped).length
  in_range : ∀ x y, .callOutOfRange x y ∉ events
  mem_program : ∀ call ∈ m.calls, m.HasFate c call .kept ↔ ∃ x y,
    p.findMethod call.caller = some x ∧ p.findMethod call.callee = some y ∧ x ∈ p.view.callers y
  callCount : p.callCount = (m.callsWith c .kept).toFinset.card

section Fates

variable {c : Classification} {m : Model}

/-- A call that is not skipped has both ends declared. -/
theorem HasFate.declares {call : CallEntry} {fate : CallFate} (h : m.HasFate c call fate)
    (hfate : fate ≠ .skipped) : m.Declares call.caller ∧ m.Declares call.callee := by
  cases fate with
  | skipped => exact absurd rfl hfate
  | dropped =>
    obtain ⟨hcallee, e, he, hsignature, -⟩ := h
    exact ⟨⟨e, he, hsignature⟩, hcallee⟩
  | kept =>
    obtain ⟨hcallee, e, he, hsignature, -⟩ := h
    exact ⟨⟨e, he, hsignature⟩, hcallee⟩

/-- If signatures are distinct, no call is both dropped and kept. -/
theorem HasFate.not_kept_of_dropped (hdistinct : (m.methods.map MethodEntry.signature).Nodup)
    {call : CallEntry} (hdropped : m.HasFate c call .dropped) : ¬ m.HasFate c call .kept := by
  rintro ⟨-, e', he', hsignature', hnone⟩
  obtain ⟨-, e, he, hsignature, pattern, hpattern, hfits⟩ := hdropped
  have hsame : e = e' :=
    List.inj_on_of_nodup_map hdistinct he he' (hsignature.trans hsignature'.symm)
  have hunfit := hnone pattern hpattern
  rw [← hsame, hfits] at hunfit
  exact absurd hunfit (by decide)

/-- A call between declared methods is dropped or kept. -/
theorem dropped_or_kept {call : CallEntry}
    (h : m.Declares call.caller ∧ m.Declares call.callee) :
    m.HasFate c call .dropped ∨ m.HasFate c call .kept := by
  obtain ⟨⟨e, he, hsignature⟩, hcallee⟩ := h
  by_cases hfits : ∃ pattern ∈ c.syntheticEntryClasses, Glob.fits pattern e.className = true
  · exact .inl ⟨hcallee, e, he, hsignature, hfits⟩
  · refine .inr ⟨hcallee, e, he, hsignature, ?_⟩
    intro pattern hpattern
    rw [← Bool.not_eq_true]
    intro hfit
    exact hfits ⟨pattern, hpattern, hfit⟩

/-- If signatures are distinct, a call has one fate. -/
theorem existsUnique_hasFate (hdistinct : (m.methods.map MethodEntry.signature).Nodup)
    (call : CallEntry) : ∃! fate, m.HasFate c call fate := by
  by_cases hdeclared : m.Declares call.caller ∧ m.Declares call.callee
  · have hskipped : ¬ m.HasFate c call .skipped := fun hnot => hnot hdeclared
    rcases dropped_or_kept (c := c) hdeclared with hdropped | hkept
    · refine ⟨.dropped, hdropped, ?_⟩
      intro fate hfate
      cases fate with
      | skipped => exact absurd hfate hskipped
      | dropped => rfl
      | kept => exact absurd hfate (hdropped.not_kept_of_dropped hdistinct)
    · refine ⟨.kept, hkept, ?_⟩
      intro fate hfate
      cases fate with
      | skipped => exact absurd hfate hskipped
      | dropped => exact absurd hkept (HasFate.not_kept_of_dropped hdistinct hfate)
      | kept => rfl
  · refine ⟨.skipped, hdeclared, ?_⟩
    intro fate hfate
    by_contra hne
    exact hdeclared (hfate.declares hne)

/-- Calls that have one fate each are as many as there are with the three fates together. -/
theorem length_of_one_fate {l : List CallEntry} (h : ∀ call ∈ l, ∃! fate, m.HasFate c call fate) :
    l.length = (l.filter (m.HasFate c · .skipped)).length +
      (l.filter (m.HasFate c · .dropped)).length + (l.filter (m.HasFate c · .kept)).length := by
  induction l with
  | nil => rfl
  | cons call l ih =>
    obtain ⟨fate, hfate, hunique⟩ := h call List.mem_cons_self
    have hrest := ih fun call' hcall' => h call' (List.mem_cons_of_mem call hcall')
    -- the call is counted under its own fate only
    have hcount : ∀ f, ((call :: l).filter (m.HasFate c · f)).length =
        (l.filter (m.HasFate c · f)).length + if f = fate then 1 else 0 := by
      intro f
      rw [List.filter_cons]
      by_cases hf : f = fate
      · rw [if_pos hf, hf, if_pos (decide_eq_true hfate), List.length_cons]
      · have hnot : ¬ m.HasFate c call f := fun hf' => hf (hunique f hf')
        rw [if_neg hf, if_neg (by simpa using hnot), Nat.add_zero]
    rw [hcount, hcount, hcount, List.length_cons, hrest]
    cases fate with
    | skipped => simp; omega
    | dropped => simp; omega
    | kept => simp; omega

end Fates

/-! ## Notes about classes -/

/-- Adding a class tells at most of a package that was kept. -/
theorem isPackageNote_of_addClass {b : Builder} {d : ClassDecl} {event : Event}
    (h : event ∈ (b.addClass d).2.2) : IsPackageNote event := by
  unfold Builder.addClass at h
  split at h
  · split at h
    · split at h
      · exact absurd h List.not_mem_nil
      · exact ⟨_, _, _, List.mem_singleton.1 h⟩
    · exact absurd h List.not_mem_nil
  · exact absurd h List.not_mem_nil

/-- The classes of a model give rise to notes about packages only. -/
theorem isPackageNote_of_addClasses {b : Builder} {entries : List ClassEntry} {event : Event}
    (h : event ∈ (addClasses b entries).2) : IsPackageNote event := by
  unfold addClasses at h
  have hstart : ∀ event ∈ ([] : List Event), IsPackageNote event := by simp
  generalize ([] : List Event) = events at h hstart
  induction entries generalizing b events with
  | nil => exact hstart event h
  | cons e entries ih =>
    rw [List.foldl_cons] at h
    refine ih _ h ?_
    intro event' hevent'
    rcases List.mem_append.1 hevent' with hearlier | hnote
    · exact hstart event' hearlier
    · exact isPackageNote_of_addClass hnote

/-! ## Calls that are skipped -/

/-- One call is added; how many were skipped and what was told is kept along with the builder. -/
def addCallEntry (state : Builder × Nat × Array Event) (e : CallEntry) :
    Builder × Nat × Array Event :=
  let (b, known, more) := state.1.addCallBetween e.caller e.callee
  (b, if known then state.2.1 else state.2.1 + 1, state.2.2 ++ more)

theorem addCalls_eq_foldl (b : Builder) (entries : List CallEntry) :
    addCalls b entries = entries.foldl addCallEntry (b, 0, #[]) := rfl

/-- The calls of a list between signatures that are not both known. -/
def unknownCalls (b : Builder) (entries : List CallEntry) : List CallEntry :=
  entries.filter fun e => b.callBetween? e.caller e.callee = none

/-- Calls that are skipped are counted and told, one by one. -/
theorem foldl_addCallEntry (b : Builder) (skipped : Nat) (events : Array Event)
    (entries : List CallEntry) :
    (entries.foldl addCallEntry (b, skipped, events)).2 =
      (skipped + (unknownCalls b entries).length,
        events ++ (unknownCalls b entries).map fun e => Event.callSkipped e.caller e.callee) := by
  induction entries generalizing b skipped events with
  | nil =>
    show (skipped, events) = (skipped + 0, events ++ ([] : List Event))
    rw [Nat.add_zero, Array.appendList_nil]
  | cons e entries ih =>
    rw [List.foldl_cons, unknownCalls, List.filter_cons, addCallEntry]
    rcases Builder.addCallBetween_cases b e.caller e.callee with
      ⟨x, y, hcall, hadd⟩ | ⟨hcall, hadd⟩
    · rw [hcall, hadd, if_neg (by simp)]
      -- recording a call does not change what the signatures of later calls stand for
      have hlater : unknownCalls (b.addCall x y) entries = unknownCalls b entries := rfl
      dsimp only
      rw [if_pos rfl, Array.appendList_nil, ih, hlater]
      rfl
    · rw [hcall, hadd, if_pos (by simp)]
      dsimp only
      rw [if_neg (by decide), ih, List.length_cons, List.map_cons, Array.appendList_cons,
        Array.appendList_cons, Array.appendList_nil]
      have hcount : skipped + 1 + (unknownCalls b entries).length =
          skipped + ((unknownCalls b entries).length + 1) := by omega
      rw [hcount]
      rfl

theorem skipEvents_eq {l : List CallEntry} :
    skipEvents l.length = if l = [] then [] else [.callsSkipped l.length] := by
  cases l with
  | nil => rfl
  | cons e l => rfl

/-! ## Calls that are dropped -/

section Builder

variable {c : Classification} {m : Model} {b : Builder} (hb : b.Consistent)
  (houtlines : b.outlines = m.methods.map (m.outline c))
  (hsynthetic : b.synthetic = c.syntheticEntryClasses)

include hb houtlines

/-- A signature is known to the builder exactly if it is declared. -/
theorem declares_iff {signature : String} :
    m.Declares signature ↔ ∃ x, b.methodId signature = some x := by
  simp only [methodId_eq_some hb houtlines, Declares, List.mem_iff_getElem?]
  constructor
  · rintro ⟨e, ⟨x, he⟩, hsignature⟩
    exact ⟨x, e, he, hsignature⟩
  · rintro ⟨x, e, he, hsignature⟩
    exact ⟨e, ⟨x, he⟩, hsignature⟩

/-- A call is unknown to the builder exactly if it is to be skipped. -/
theorem callBetween?_eq_none {call : CallEntry} :
    b.callBetween? call.caller call.callee = none ↔ m.HasFate c call .skipped := by
  have hsome : (∃ pair, b.callBetween? call.caller call.callee = some pair) ↔
      m.Declares call.caller ∧ m.Declares call.callee := by
    rw [declares_iff hb houtlines, declares_iff hb houtlines]
    constructor
    · rintro ⟨pair, hpair⟩
      obtain ⟨x, y⟩ := pair
      obtain ⟨hx, hy⟩ := Builder.callBetween?_eq_some.1 hpair
      exact ⟨⟨x, hx⟩, ⟨y, hy⟩⟩
    · rintro ⟨⟨x, hx⟩, ⟨y, hy⟩⟩
      exact ⟨(x, y), Builder.callBetween?_eq_some.2 ⟨hx, hy⟩⟩
  rw [HasFate, ← hsome, ← Option.ne_none_iff_exists', not_not]

/-- A method that is declared under a known signature stands at its number. -/
theorem entry_of_methodId {signature : String} {x : MethodId} {e : MethodEntry}
    (hx : b.methodId signature = some x) (he : e ∈ m.methods)
    (hsignature : e.signature = signature) : m.methods[x]? = some e := by
  obtain ⟨place, hplace⟩ := List.mem_iff_getElem?.1 he
  have hid := (methodId_eq_some hb houtlines).2 ⟨e, hplace, hsignature⟩
  rw [hx, Option.some.injEq] at hid
  rw [hid]
  exact hplace

include hsynthetic

omit hb in
/-- At the end nothing is wrong with the numbers of a known call, and the class name of the caller
decides. -/
theorem callEvents_of_entries {x y : MethodId} {caller callee : MethodEntry}
    (hx : m.methods[x]? = some caller) (hy : m.methods[y]? = some callee) :
    b.callEvents (x, y) =
      if Glob.fitsAny c.syntheticEntryClasses caller.className then
        [.syntheticCallDropped caller.className]
      else [] := by
  obtain ⟨method, hmethod, howner⟩ := exists_method_of_entry houtlines hx
  obtain ⟨_, hcallee, -⟩ := exists_method_of_entry houtlines hy
  have hlt : ¬ b.methods.size ≤ y := Nat.not_le_of_lt (Array.getElem?_eq_some_iff.1 hcallee).1
  have hverdict : b.verdict (x, y) =
      if Glob.fitsAny c.syntheticEntryClasses caller.className then .synthetic caller.className
      else .kept := by
    rw [Builder.verdict, hmethod]
    dsimp only
    rw [if_neg hlt, howner]
    dsimp only
    rw [name_classDecl, hsynthetic]
  rw [Builder.callEvents, hverdict]
  cases Glob.fitsAny c.syntheticEntryClasses caller.className with
  | true => rfl
  | false => rfl

/-- A dropped call is told at the end. -/
theorem events_of_dropped {call : CallEntry} (h : m.HasFate c call .dropped) :
    ∃ event, (b.callBetween? call.caller call.callee).toList.flatMap b.callEvents = [event] ∧
      m.TellsDrop call event := by
  obtain ⟨hcallee, caller, hcaller, hsignature, hfits⟩ := h
  obtain ⟨x, hx⟩ := (declares_iff hb houtlines).1 ⟨caller, hcaller, hsignature⟩
  obtain ⟨y, hy⟩ := (declares_iff hb houtlines).1 hcallee
  obtain ⟨callee, hplace, -⟩ := (methodId_eq_some hb houtlines).1 hy
  have hfitsAny : Glob.fitsAny c.syntheticEntryClasses caller.className = true :=
    List.any_eq_true.2 hfits
  have hentry := entry_of_methodId hb houtlines hx hcaller hsignature
  refine ⟨_, ?_, caller, hcaller, hsignature, rfl⟩
  rw [Builder.callBetween?_eq_some.2 ⟨hx, hy⟩, Option.toList_some, List.flatMap_singleton,
    callEvents_of_entries houtlines hsynthetic hentry hplace, if_pos hfitsAny]

/-- Of any other call nothing is told at the end. -/
theorem events_of_not_dropped {call : CallEntry} (h : ¬ m.HasFate c call .dropped) :
    (b.callBetween? call.caller call.callee).toList.flatMap b.callEvents = [] := by
  cases hpair : b.callBetween? call.caller call.callee with
  | none => rfl
  | some pair =>
    obtain ⟨x, y⟩ := pair
    obtain ⟨hx, hy⟩ := Builder.callBetween?_eq_some.1 hpair
    obtain ⟨caller, hcaller, hsignature⟩ := (methodId_eq_some hb houtlines).1 hx
    obtain ⟨callee, hcallee, hsignature'⟩ := (methodId_eq_some hb houtlines).1 hy
    have hunfit : ¬ Glob.fitsAny c.syntheticEntryClasses caller.className = true := by
      intro hfits
      exact h ⟨⟨callee, List.mem_of_getElem? hcallee, hsignature'⟩, caller,
        List.mem_of_getElem? hcaller, hsignature, List.any_eq_true.1 hfits⟩
    rw [Option.toList_some, List.flatMap_singleton,
      callEvents_of_entries houtlines hsynthetic hcaller hcallee, if_neg hunfit]

end Builder

/-- When the program is finished, the calls between known signatures are passed in order. -/
theorem events_build_addCalls {b : Builder} (hcalls : b.calls = #[]) (entries : List CallEntry) :
    (addCalls b entries).1.build.2 =
      entries.flatMap fun e => (b.callBetween? e.caller e.callee).toList.flatMap b.callEvents := by
  rw [addCalls_spec]
  show (b.calls ++ entries.filterMap fun e => b.callBetween? e.caller e.callee).toList.flatMap
    b.callEvents = _
  rw [hcalls, Array.toList_appendList, List.nil_append, List.filterMap_eq_flatMap_toList,
    List.flatMap_assoc]

/-! ## Calls that are kept -/

/-- The signature at a place of a model. -/
def signatureAt (m : Model) (x : MethodId) : String :=
  ((m.methods[x]?).map MethodEntry.signature).getD ""

/-- The call between two places of a model. -/
def callAt (m : Model) (pair : MethodId × MethodId) : CallEntry :=
  ⟨m.signatureAt pair.1, m.signatureAt pair.2⟩

theorem callAt_eq {m : Model} {x y : MethodId} {caller callee : MethodEntry}
    (hx : m.methods[x]? = some caller) (hy : m.methods[y]? = some callee) :
    m.callAt (x, y) = ⟨caller.signature, callee.signature⟩ := by
  simp only [callAt, signatureAt, hx, hy, Option.map_some, Option.getD_some]

/-! ## The whole build -/

section Build

variable {c : Classification} {m : Model} {p : Program} (hok : (m.build c).1 = .ok p)

include hok

/-- The log of a build, part by part. -/
theorem exists_log_of_build : ∃ classNotes dropNotes,
    (∀ event ∈ classNotes, IsPackageNote event) ∧
    List.Forall₂ m.TellsDrop (m.callsWith c .dropped) dropNotes ∧
    (m.build c).2 = classNotes ++
      (m.callsWith c .skipped).map (fun call => .callSkipped call.caller call.callee) ++
      (if m.callsWith c .skipped = [] then [] else
        [.callsSkipped (m.callsWith c .skipped).length]) ++
      dropNotes ++ [builtEvent p] := by
  obtain ⟨b, hadd, hb, houtlines, hcalls, hsynthetic⟩ := exists_addMethods c m (nodup_of_build hok)
  have hunknown : unknownCalls b m.calls = m.callsWith c .skipped := by
    refine List.filter_congr fun call _ => ?_
    exact decide_eq_decide.2 (callBetween?_eq_none hb houtlines)
  have hskipped : (addCalls b m.calls).2 = ((m.callsWith c .skipped).length,
      ((m.callsWith c .skipped).map fun e => Event.callSkipped e.caller e.callee).toArray) := by
    rw [addCalls_eq_foldl, foldl_addCallEntry, hunknown, Nat.zero_add]
    simp
  have hbuild := build_of_addMethods hadd
  have hp : (addCalls b m.calls).1.build.1 = p := by
    rw [hbuild] at hok
    exact Except.ok.inj hok
  refine ⟨(addClasses (start c) m.classes).2, (addCalls b m.calls).1.build.2,
    fun event => isPackageNote_of_addClasses, ?_, ?_⟩
  · rw [events_build_addCalls hcalls]
    exact forall₂_filter_flatMap (fun call _ => events_of_dropped hb houtlines hsynthetic)
      (fun call _ => events_of_not_dropped hb houtlines hsynthetic)
  · rw [hbuild, hp, hskipped, skipEvents_eq]

/-- What a build can tell. -/
theorem log_cases {event : Event} (h : event ∈ (m.build c).2) :
    IsPackageNote event ∨ (∃ caller callee, event = .callSkipped caller callee) ∨
    (m.callsWith c .skipped ≠ [] ∧ event = .callsSkipped (m.callsWith c .skipped).length) ∨
    (∃ name, event = .syntheticCallDropped name) ∨ event = builtEvent p := by
  obtain ⟨classNotes, dropNotes, hnotes, hdrops, hlog⟩ := exists_log_of_build hok
  rw [hlog] at h
  simp only [List.mem_append, List.mem_singleton] at h
  rcases h with (((hnote | hskip) | htotal) | hdrop) | hbuilt
  · exact .inl (hnotes event hnote)
  · obtain ⟨call, -, rfl⟩ := List.mem_map.1 hskip
    exact .inr (.inl ⟨_, _, rfl⟩)
  · split at htotal
    next => exact absurd htotal List.not_mem_nil
    next hne => exact .inr (.inr (.inl ⟨hne, List.mem_singleton.1 htotal⟩))
  · obtain ⟨call, -, e, -, -, heq⟩ := exists_of_mem_right hdrops hdrop
    exact .inr (.inr (.inr (.inl ⟨_, heq⟩)))
  · exact .inr (.inr (.inr (.inr hbuilt)))

/-- How many calls were skipped is told if there are any. -/
theorem callsSkipped_mem_iff {n : Nat} :
    .callsSkipped n ∈ (m.build c).2 ↔ 0 < n ∧ n = (m.callsWith c .skipped).length := by
  constructor
  · intro h
    rcases log_cases hok h with ⟨_, _, _, heq⟩ | ⟨_, _, heq⟩ | ⟨hne, heq⟩ | ⟨_, heq⟩ | heq
    · exact absurd heq (by simp)
    · exact absurd heq (by simp)
    · have hn := Event.callsSkipped.inj heq
      rw [hn]
      exact ⟨List.length_pos_iff.2 hne, rfl⟩
    · exact absurd heq (by simp)
    · exact absurd heq (by simp [builtEvent])
  · rintro ⟨hpos, hn⟩
    obtain ⟨classNotes, dropNotes, -, -, hlog⟩ := exists_log_of_build hok
    have hne : m.callsWith c .skipped ≠ [] := by
      rw [hn] at hpos
      exact List.length_pos_iff.1 hpos
    rw [hlog, if_neg hne, hn]
    simp

/-- No call is out of range. -/
theorem callOutOfRange_not_mem (x y : MethodId) : .callOutOfRange x y ∉ (m.build c).2 := by
  intro h
  rcases log_cases hok h with ⟨_, _, _, heq⟩ | ⟨_, _, heq⟩ | ⟨-, heq⟩ | ⟨_, heq⟩ | heq
  · exact absurd heq (by simp)
  · exact absurd heq (by simp)
  · exact absurd heq (by simp)
  · exact absurd heq (by simp)
  · exact absurd heq (by simp [builtEvent])

/-- A method is found at the place of its entry. -/
theorem findMethod_of_build {signature : String} {x : MethodId} :
    p.findMethod signature = some x ↔ ∃ e, m.methods[x]? = some e ∧ e.signature = signature := by
  obtain ⟨b, hbuild, hb, houtlines, -, -⟩ := exists_builder c m (nodup_of_build hok)
  rw [hok, Except.ok.injEq] at hbuild
  rw [hbuild, hb.findMethod_build, methodId_eq_some hb houtlines]

/-- A call of the model is kept exactly if it is in the program. -/
theorem kept_iff {call : CallEntry} (hcall : call ∈ m.calls) :
    m.HasFate c call .kept ↔ ∃ x y, p.findMethod call.caller = some x ∧
      p.findMethod call.callee = some y ∧ x ∈ p.view.callers y := by
  have hcallers := (describes_of_build hok).callers
  simp only [findMethod_of_build hok]
  constructor
  · rintro ⟨⟨callee, hcallee, hsignature'⟩, caller, hcaller, hsignature, hunfit⟩
    obtain ⟨x, hx⟩ := List.mem_iff_getElem?.1 hcaller
    obtain ⟨y, hy⟩ := List.mem_iff_getElem?.1 hcallee
    exact ⟨x, y, ⟨caller, hx, hsignature⟩, ⟨callee, hy, hsignature'⟩, (hcallers x y).2
      ⟨caller, callee, hx, hy, hcaller, hcallee, ⟨call, hcall, hsignature.symm, hsignature'.symm⟩,
        hunfit⟩⟩
  · rintro ⟨x, y, ⟨caller, hx, hsignature⟩, ⟨callee, hy, hsignature'⟩, hmem⟩
    obtain ⟨caller', _, hx', -, -, -, -, hunfit⟩ := (hcallers x y).1 hmem
    rw [hx, Option.some.injEq] at hx'
    rw [← hx'] at hunfit
    exact ⟨⟨callee, List.mem_of_getElem? hy, hsignature'⟩, caller, List.mem_of_getElem? hx,
      hsignature, hunfit⟩

/-- The calls of the program are those that are kept, written with signatures. -/
theorem mem_kept_iff {call : CallEntry} :
    call ∈ m.callsWith c .kept ↔ call ∈ p.calls.pairs.map m.callAt := by
  rw [callsWith, List.mem_filter, decide_eq_true_eq, List.mem_map]
  constructor
  · rintro ⟨hcall, hkept⟩
    obtain ⟨x, y, hx, hy, hmem⟩ := (kept_iff hok hcall).1 hkept
    obtain ⟨caller, hx, hcaller⟩ := (findMethod_of_build hok).1 hx
    obtain ⟨callee, hy, hcallee⟩ := (findMethod_of_build hok).1 hy
    refine ⟨(x, y), CallGraph.mem_pairs.2 hmem, ?_⟩
    rw [callAt_eq hx hy, hcaller, hcallee]
  · rintro ⟨pair, hpair, rfl⟩
    obtain ⟨x, y⟩ := pair
    obtain ⟨caller, callee, hx, hy, hcaller, hcallee, ⟨call, hcall, hfirst, hsecond⟩, hunfit⟩ :=
      ((describes_of_build hok).callers x y).1 (CallGraph.mem_pairs.1 hpair)
    have hentry : m.callAt (x, y) = call := by rw [callAt_eq hx hy, ← hfirst, ← hsecond]
    rw [hentry]
    exact ⟨hcall, ⟨callee, hcallee, hsecond.symm⟩, caller, hcaller, hfirst.symm, hunfit⟩

/-- Signatures tell the calls of the program apart. -/
theorem callAt_injOn : ∀ pair ∈ p.calls.pairs, ∀ pair' ∈ p.calls.pairs,
    m.callAt pair = m.callAt pair' → pair = pair' := by
  intro pair hpair pair' hpair' heq
  obtain ⟨x, y⟩ := pair
  obtain ⟨x', y'⟩ := pair'
  have hcallers := (describes_of_build hok).callers
  obtain ⟨caller, callee, hx, hy, -⟩ := (hcallers x y).1 (CallGraph.mem_pairs.1 hpair)
  obtain ⟨caller', callee', hx', hy', -⟩ := (hcallers x' y').1 (CallGraph.mem_pairs.1 hpair')
  rw [callAt_eq hx hy, callAt_eq hx' hy'] at heq
  obtain ⟨hcaller, hcallee⟩ := CallEntry.mk.inj heq
  have hdistinct := nodup_of_build hok
  rw [place_unique hdistinct hx hx' hcaller, place_unique hdistinct hy hy' hcallee]

/-- The calls in the program are as many as there are distinct calls that are kept. -/
theorem callCount_of_build : p.callCount = (m.callsWith c .kept).toFinset.card := by
  have hnodup : p.calls.pairs.Nodup :=
    CallGraph.nodup_pairs fun id => (increasing_callers_of_build hok id).imp Nat.ne_of_lt
  have hfinset : (m.callsWith c .kept).toFinset = (p.calls.pairs.map m.callAt).toFinset := by
    ext call
    rw [List.mem_toFinset, List.mem_toFinset, mem_kept_iff hok]
  calc p.callCount
      = p.calls.pairs.length := p.calls.callCount_eq
    _ = p.calls.pairs.toFinset.card := (List.toFinset_card_of_nodup hnodup).symm
    _ = (p.calls.pairs.map m.callAt).toFinset.card := (card_map_of_injOn (callAt_injOn hok)).symm
    _ = (m.callsWith c .kept).toFinset.card := by rw [hfinset]

end Build

/-- **Every call of a model is accounted for.**  If the model is built, each of its calls is either
skipped, because one of its ends is not declared, or dropped, because the class of its caller fits a
synthetic entry class, or kept.  The log warns of each skipped call, tells the number of them if
there are any, and tells of each dropped call, and of no other; in particular it never tells of a
call that is out of range.  The calls of the program are the kept ones, each counted once. -/
theorem build_accounts_for_calls {c : Classification} {m : Model} {p : Program}
    (hok : (m.build c).1 = .ok p) :
    CallsAccounted c m p (m.build c).2 ∧
    (∀ caller callee, (Event.callSkipped caller callee).level = .warn ∧
      (Event.callSkipped caller callee).message =
        s!"Skipping call edge with unknown method: {caller} -> {callee}") ∧
    (∀ name, (Event.syntheticCallDropped name).level = .debug ∧
      (Event.syntheticCallDropped name).message =
        s!"Dropping edge from synthetic entry class {name}") ∧
    ∀ n, (Event.callsSkipped n).message = s!"Skipped {n} call edges with unknown endpoints" := by
  have hdistinct := nodup_of_build hok
  refine ⟨?_, fun _ _ => ⟨rfl, rfl⟩, fun _ => ⟨rfl, rfl⟩, fun _ => rfl⟩
  exact {
    one_fate := fun call _ => existsUnique_hasFate hdistinct call
    sum_fates := length_of_one_fate fun call _ => existsUnique_hasFate hdistinct call
    log := exists_log_of_build hok
    callsSkipped := fun _ => callsSkipped_mem_iff hok
    in_range := callOutOfRange_not_mem hok
    mem_program := fun _ => kept_iff hok
    callCount := callCount_of_build hok }

/-- Calls of every fate, some of them repeated: two that name nothing known, two from the class that
stands for the platform, and three that stay, two of them equal. -/
def mixedCalls : Model where
  methods := [⟨"<dummyMainClass: void main()>", "dummyMainClass", []⟩,
    ⟨"<a.A: void a()>", "a.A", []⟩, ⟨"<b.B: void b()>", "b.B", []⟩]
  calls := [⟨"<a.A: void a()>", "<nowhere>"⟩, ⟨"<a.A: void a()>", "<b.B: void b()>"⟩,
    ⟨"<dummyMainClass: void main()>", "<a.A: void a()>"⟩,
    ⟨"<dummyMainClass: void main()>", "<nowhere>"⟩, ⟨"<a.A: void a()>", "<b.B: void b()>"⟩,
    ⟨"<b.B: void b()>", "<b.B: void b()>"⟩,
    ⟨"<dummyMainClass: void main()>", "<a.A: void a()>"⟩]

/-- The call that is both from the platform and to nowhere is skipped, and the repeated call counts
once. -/
theorem build_accounts_mixedCalls :
    ∃ p, (mixedCalls.build {}).1 = .ok p ∧
      (mixedCalls.callsWith {} .skipped).length = 2 ∧
      (mixedCalls.callsWith {} .dropped).length = 2 ∧
      (mixedCalls.callsWith {} .kept).length = 3 ∧ p.callCount = 2 ∧
      .callsSkipped 2 ∈ (mixedCalls.build {}).2 ∧ .callsSkipped 1 ∉ (mixedCalls.build {}).2 := by
  have hdistinct : (mixedCalls.methods.map MethodEntry.signature).Nodup := by decide
  obtain ⟨p, hok, -⟩ := mixedCalls.exists_program {} hdistinct
  obtain ⟨haccounts, -⟩ := build_accounts_for_calls hok
  have hskipped : (mixedCalls.callsWith {} .skipped).length = 2 := by decide
  refine ⟨p, hok, hskipped, by decide, by decide, ?_, ?_, ?_⟩
  · rw [haccounts.callCount]
    decide
  · exact (haccounts.callsSkipped 2).2 ⟨by decide, hskipped.symm⟩
  · intro hone
    obtain ⟨-, heq⟩ := (haccounts.callsSkipped 1).1 hone
    omega

end Model
end KeywordAudit
