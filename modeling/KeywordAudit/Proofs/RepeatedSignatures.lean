import Mathlib.Data.List.Nodup
import Mathlib.Tactic.Tauto
import KeywordAudit.Proofs.ModelBuild
import KeywordAudit.Proofs.Session

/-!
# Repeated signatures

A model is refused for one reason only: a method has the signature of an earlier one.  The builder
finds this out method by method, from its index of the signatures so far; neither the classes that
were added before nor those that methods bring in get in the way.  So the refusal names the first
signature that repeats, and it depends on nothing but the list of signatures.
-/

namespace KeywordAudit

/-! ## The first repetition in a list -/

section FirstRepeat

variable {α : Type}

/-- The first value of a list that is among those seen or stands earlier in the list. -/
def firstRepeat? [DecidableEq α] (seen : List α) : List α → Option α
  | [] => none
  | x :: xs => if x ∈ seen then some x else firstRepeat? (x :: seen) xs

/-- The values of a list are distinct, and none of them was seen. -/
def AllNew (seen xs : List α) : Prop := xs.Nodup ∧ ∀ x ∈ xs, x ∉ seen

theorem allNew_nil (seen : List α) : AllNew seen [] :=
  ⟨List.nodup_nil, fun _ hx => absurd hx List.not_mem_nil⟩

/-- Values are new one after another, each being seen from then on. -/
theorem allNew_cons {seen xs : List α} {y : α} :
    AllNew seen (y :: xs) ↔ y ∉ seen ∧ AllNew (y :: seen) xs := by
  unfold AllNew
  rw [List.nodup_cons]
  constructor
  · rintro ⟨⟨hy, hnodup⟩, hnew⟩
    refine ⟨hnew y List.mem_cons_self, hnodup, ?_⟩
    intro x hx hseen
    rcases List.mem_cons.1 hseen with rfl | hseen
    · exact hy hx
    · exact hnew x (List.mem_cons_of_mem y hx) hseen
  · rintro ⟨hy, hnodup, hnew⟩
    refine ⟨⟨fun hmem => hnew y hmem List.mem_cons_self, hnodup⟩, ?_⟩
    intro x hx hseen
    rcases List.mem_cons.1 hx with rfl | hx
    · exact hy hseen
    · exact hnew x hx (List.mem_cons_of_mem y hseen)

variable [DecidableEq α]

/-- Nothing repeats exactly if all values are new. -/
theorem firstRepeat?_eq_none_iff {seen xs : List α} :
    firstRepeat? seen xs = none ↔ AllNew seen xs := by
  induction xs generalizing seen with
  | nil => exact iff_of_true rfl (allNew_nil seen)
  | cons y ys ih =>
    rw [allNew_cons, firstRepeat?]
    by_cases hy : y ∈ seen
    · rw [if_pos hy]
      exact iff_of_false (by simp) (fun h => h.1 hy)
    · rw [if_neg hy, ih]
      exact (and_iff_right hy).symm

/-- The first repetition comes after values that are all new, and is one of them or was seen. -/
theorem firstRepeat?_eq_some_iff {seen xs : List α} {x : α} :
    firstRepeat? seen xs = some x ↔
      ∃ before after, xs = before ++ x :: after ∧ AllNew seen before ∧ (x ∈ seen ∨ x ∈ before) := by
  induction xs generalizing seen with
  | nil =>
    refine iff_of_false (by simp [firstRepeat?]) ?_
    rintro ⟨before, after, hnil, -⟩
    exact absurd hnil (by simp)
  | cons y ys ih =>
    rw [firstRepeat?]
    by_cases hy : y ∈ seen
    · rw [if_pos hy, Option.some.injEq]
      constructor
      · rintro rfl
        exact ⟨[], ys, rfl, allNew_nil seen, .inl hy⟩
      · rintro ⟨before, after, heq, hnew, -⟩
        cases before with
        | nil => exact (List.cons.inj heq).1
        | cons z before =>
          obtain ⟨rfl, -⟩ := List.cons.inj heq
          exact absurd hy (allNew_cons.1 hnew).1
    · rw [if_neg hy, ih]
      constructor
      · rintro ⟨before, after, rfl, hnew, hx⟩
        refine ⟨y :: before, after, rfl, allNew_cons.2 ⟨hy, hnew⟩, ?_⟩
        rw [List.mem_cons] at hx ⊢
        tauto
      · rintro ⟨before, after, heq, hnew, hx⟩
        cases before with
        | nil =>
          obtain ⟨rfl, -⟩ := List.cons.inj heq
          exact absurd hx (by simp [hy])
        | cons z before =>
          obtain ⟨rfl, rfl⟩ := List.cons.inj heq
          refine ⟨before, after, rfl, (allNew_cons.1 hnew).2, ?_⟩
          rw [List.mem_cons] at hx ⊢
          tauto

end FirstRepeat

namespace Model

/-! ## Refusals -/

/-- The methods of a list are added until a signature repeats, among the known ones or in the
list. -/
theorem addMethods_eq_error_iff (c : Classification) {b : Builder} {known : List String}
    (hk : b.Knows known) {entries : List MethodEntry} {e : DuplicateMethod} :
    addMethods c b entries = .error e ↔
      firstRepeat? known (entries.map MethodEntry.signature) = some e.signature := by
  induction entries generalizing b known with
  | nil => exact iff_of_false (by simp [addMethods]) (by simp [firstRepeat?])
  | cons entry entries ih =>
    rw [addMethods, List.map_cons, firstRepeat?]
    rcases Builder.addMethod_cases entry.signature entry.className
      (entry.body.map (statement c)) b with ⟨id, hid, hadd⟩ | ⟨hnew, hadd⟩
    · rw [hadd, if_pos ((hk entry.signature).2 ⟨id, hid⟩), Option.some.injEq]
      constructor
      · intro h
        rw [← Except.error.inj h]
      · rintro h
        rw [h]
    · have hunknown : entry.signature ∉ known := by
        intro hmem
        obtain ⟨id, hid⟩ := (hk entry.signature).1 hmem
        rw [hnew] at hid
        exact absurd hid (by simp)
      -- from here on the signature is known
      have hknows := hk.step (.addMethod entry.signature entry.className
        (entry.body.map (statement c)))
      rw [Builder.step_addMethod_of_new hnew] at hknows
      rw [hadd, if_neg hunknown]
      exact ih hknows

/-- The classes of a model bring in no signature. -/
theorem knows_addClasses (c : Classification) (entries : List ClassEntry) :
    (addClasses (start c) entries).1.Knows [] := by
  obtain ⟨-, -, -, hindex, -⟩ := addClasses_spec (consistent_start c) entries
  intro signature
  rw [hindex]
  exact Builder.knows_empty signature

/-- A model is refused for the first signature that repeats. -/
theorem build_eq_error_iff {c : Classification} {m : Model} {e : DuplicateMethod} :
    (m.build c).1 = .error e ↔
      firstRepeat? [] (m.methods.map MethodEntry.signature) = some e.signature := by
  rw [build_fst, ← addMethods_eq_error_iff c (knows_addClasses c m.classes)]
  cases addMethods c (addClasses (start c) m.classes).1 m.methods with
  | error e' => simp only [Except.error.injEq]
  | ok b => exact iff_of_false (by simp) (by simp)

/-- A model is refused exactly if its signatures are not distinct. -/
theorem exists_error_iff {c : Classification} {m : Model} :
    (∃ e, (m.build c).1 = .error e) ↔ ¬ (m.methods.map MethodEntry.signature).Nodup := by
  have hnew : AllNew [] (m.methods.map MethodEntry.signature) ↔
      (m.methods.map MethodEntry.signature).Nodup :=
    and_iff_left fun _ _ => List.not_mem_nil
  rw [← hnew, ← firstRepeat?_eq_none_iff, ← ne_eq, Option.ne_none_iff_exists']
  simp only [build_eq_error_iff]
  constructor
  · rintro ⟨e, he⟩
    exact ⟨e.signature, he⟩
  · rintro ⟨signature, h⟩
    exact ⟨⟨signature⟩, h⟩

/-- A model is built only if its signatures are distinct. -/
theorem nodup_of_build {c : Classification} {m : Model} {p : Program}
    (h : (m.build c).1 = .ok p) : (m.methods.map MethodEntry.signature).Nodup := by
  by_contra hrepeated
  obtain ⟨e, he⟩ := exists_error_iff.2 hrepeated
  rw [h] at he
  exact absurd he (by simp)

/-- Signatures that are not distinct stand at two places. -/
theorem not_nodup_signatures_iff {methods : List MethodEntry} :
    ¬ (methods.map MethodEntry.signature).Nodup ↔
      ∃ (i j : Nat) (e e' : MethodEntry), i < j ∧ methods[i]? = some e ∧ methods[j]? = some e' ∧
        e.signature = e'.signature := by
  rw [List.nodup_iff_getElem?_ne_getElem?]
  simp only [List.getElem?_map, List.length_map]
  push Not
  constructor
  · rintro ⟨i, j, hij, hj, heq⟩
    have hi : i < methods.length := by omega
    refine ⟨i, j, methods[i], methods[j], hij, List.getElem?_eq_getElem hi,
      List.getElem?_eq_getElem hj, ?_⟩
    rw [List.getElem?_eq_getElem hi, List.getElem?_eq_getElem hj] at heq
    exact Option.some.inj heq
  · rintro ⟨i, j, e, e', hij, hi, hj, heq⟩
    refine ⟨i, j, hij, (List.getElem?_eq_some_iff.1 hj).1, ?_⟩
    rw [hi, hj, Option.map_some, Option.map_some, heq]

/-- **A model is refused exactly for a repeated signature.**  It cannot be built if and only if two
of its methods have the same signature.  The refusal then names the signature of the first method
that has the signature of an earlier one, those before it being distinct.  So models with the same
signatures are refused alike, whatever their classes, bodies and calls and however they are
classified. -/
theorem build_refuses_first_repeat (c : Classification) (m : Model) :
    ((∃ e, (m.build c).1 = .error e) ↔
      ∃ (i j : Nat) (e e' : MethodEntry), i < j ∧ m.methods[i]? = some e ∧
        m.methods[j]? = some e' ∧ e.signature = e'.signature) ∧
    (∀ e, (m.build c).1 = .error e ↔
      ∃ before entry after, m.methods = before ++ entry :: after ∧
        (before.map MethodEntry.signature).Nodup ∧
        entry.signature ∈ before.map MethodEntry.signature ∧ e = ⟨entry.signature⟩) ∧
    ∀ (c' : Classification) (m' : Model),
      m'.methods.map MethodEntry.signature = m.methods.map MethodEntry.signature →
      ∀ e, (m'.build c').1 = .error e ↔ (m.build c).1 = .error e := by
  refine ⟨?_, ?_, ?_⟩
  · rw [exists_error_iff, not_nodup_signatures_iff]
  · intro e
    rw [build_eq_error_iff, firstRepeat?_eq_some_iff]
    constructor
    · rintro ⟨before, after, hsplit, hnew, hseen | hmem⟩
      · exact absurd hseen List.not_mem_nil
      · obtain ⟨entries, rest, hmethods, rfl, hrest⟩ := List.map_eq_append_iff.1 hsplit
        obtain ⟨entry, later, rfl, hentry, -⟩ := List.map_eq_cons_iff.1 hrest
        rw [← hentry] at hmem
        exact ⟨entries, entry, later, hmethods, hnew.1, hmem, by rw [hentry]⟩
    · rintro ⟨before, entry, after, hmethods, hnodup, hmem, rfl⟩
      refine ⟨before.map MethodEntry.signature, after.map MethodEntry.signature, ?_,
        ⟨hnodup, fun _ _ => List.not_mem_nil⟩, .inr hmem⟩
      rw [hmethods, List.map_append, List.map_cons]
  · intro c' m' hsame e
    rw [build_eq_error_iff, build_eq_error_iff, hsame]

/-- Two signatures repeat, the second one first. -/
def doubledModel : Model where
  classes := [⟨"a.A", none⟩]
  methods := [⟨"<a.A: void a()>", "a.A", []⟩, ⟨"<b.B: void b()>", "b.B", []⟩,
    ⟨"<c.C: void c()>", "c.C", []⟩, ⟨"<b.B: void b()>", "z.Late", [⟨"the key", none⟩]⟩,
    ⟨"<a.A: void a()>", "a.A", []⟩]
  calls := [⟨"<a.A: void a()>", "<nowhere>"⟩]

/-- The same signatures with other classes and bodies, and without calls. -/
def doubledModelAgain : Model where
  methods := [⟨"<a.A: void a()>", "x", [⟨"an id", none⟩]⟩, ⟨"<b.B: void b()>", "x", []⟩,
    ⟨"<c.C: void c()>", "y", []⟩, ⟨"<b.B: void b()>", "x", []⟩, ⟨"<a.A: void a()>", "", []⟩]

/-- Both are refused for the signature that repeats first, though the other one comes before it. -/
theorem build_refuses_doubledModel :
    (doubledModel.build {}).1 = .error ⟨"<b.B: void b()>"⟩ ∧
    doubledModelAgain.methods.map MethodEntry.signature =
      doubledModel.methods.map MethodEntry.signature ∧
    (doubledModelAgain.build { syntheticEntryClasses := ["x"] }).1 =
      .error ⟨"<b.B: void b()>"⟩ := by
  obtain ⟨-, hexact, hsame⟩ := build_refuses_first_repeat {} doubledModel
  have hrefused : (doubledModel.build {}).1 = .error ⟨"<b.B: void b()>"⟩ :=
    (hexact _).2 ⟨doubledModel.methods.take 3, _, doubledModel.methods.drop 4, rfl, by decide,
      by decide, rfl⟩
  have hsignatures : doubledModelAgain.methods.map MethodEntry.signature =
    doubledModel.methods.map MethodEntry.signature := rfl
  exact ⟨hrefused, hsignatures, (hsame _ _ hsignatures _).2 hrefused⟩

end Model
end KeywordAudit
