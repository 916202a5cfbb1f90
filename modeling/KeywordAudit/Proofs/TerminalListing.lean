import Mathlib.Data.List.Induction
import KeywordAudit.Proofs.Inspection
import KeywordAudit.Proofs.TerminalText
import KeywordAudit.Report.Document

/-!
# The hits in a terminal report

The terminal report puts hits under the headings of their methods, and it collects them one by one
into groups that are kept in the order of the methods' numbers.  Read from top to bottom, its text
lists the hits in stable order by method, whatever order they were found in.  A finished program is
inspected in that order already, so there the terminal report and the JSON report list the same
hits in the same order.
-/

namespace KeywordAudit

/-! ## Stable order -/

section Stable

variable {α : Type} {key : α → Nat}

theorem key_le_trans (x y z : α) (hxy : decide (key x ≤ key y) = true)
    (hyz : decide (key y ≤ key z) = true) : decide (key x ≤ key z) = true := by
  simp only [decide_eq_true_eq] at hxy hyz ⊢
  omega

theorem key_le_total (x y : α) : (decide (key x ≤ key y) || decide (key y ≤ key x)) = true := by
  simp only [Bool.or_eq_true, decide_eq_true_eq]
  omega

/-- Sorting by a key keeps the values of each key and their order. -/
theorem filter_mergeSort (l : List α) (k : Nat) :
    (l.mergeSort fun x y => decide (key x ≤ key y)).filter (key · = k) =
      l.filter (key · = k) := by
  have hequal : (l.filter (key · = k)).Pairwise fun x y => decide (key x ≤ key y) = true := by
    refine List.pairwise_of_forall_mem_list ?_
    intro x hx y hy
    have hkx : key x = k := of_decide_eq_true (List.mem_filter.1 hx).2
    have hky : key y = k := of_decide_eq_true (List.mem_filter.1 hy).2
    simp only [decide_eq_true_eq]
    omega
  -- the values of one key are in order as they stand, so they stay a sublist of the sorted list
  have hsublist := List.sublist_mergeSort key_le_trans key_le_total hequal List.filter_sublist
  have hfilter := hsublist.filter (key · = k)
  rw [List.filter_filter] at hfilter
  simp only [Bool.and_self] at hfilter
  refine (hfilter.eq_of_length ?_).symm
  exact ((List.mergeSort_perm l _).filter _).length_eq.symm

/-- The values of each key are the values of the list. -/
theorem mem_iff_of_filter_eq {l l' : List α}
    (h : ∀ k, l.filter (key · = k) = l'.filter (key · = k)) (z : α) : z ∈ l ↔ z ∈ l' := by
  have hz := congrArg (z ∈ ·) (h (key z))
  simpa using hz

/-- Lists in the order of their keys are equal when they have the same values of each key in the
same order. -/
theorem eq_of_filter_eq {l l' : List α} (hl : l.Pairwise fun x y => key x ≤ key y)
    (hl' : l'.Pairwise fun x y => key x ≤ key y)
    (h : ∀ k, l.filter (key · = k) = l'.filter (key · = k)) : l = l' := by
  have hmem := mem_iff_of_filter_eq h
  induction l generalizing l' with
  | nil =>
    cases l' with
    | nil => rfl
    | cons y ys => exact absurd ((hmem y).2 List.mem_cons_self) List.not_mem_nil
  | cons x xs ih =>
    cases l' with
    | nil => exact absurd ((hmem x).1 List.mem_cons_self) List.not_mem_nil
    | cons y ys =>
      obtain ⟨hx1, hx2⟩ := List.pairwise_cons.1 hl
      obtain ⟨hy1, hy2⟩ := List.pairwise_cons.1 hl'
      have hkey : key y = key x := by
        have hxy : key x ≤ key y := by
          rcases List.mem_cons.1 ((hmem y).2 List.mem_cons_self) with rfl | hy
          · exact Nat.le_refl _
          · exact hx1 y hy
        have hyx : key y ≤ key x := by
          rcases List.mem_cons.1 ((hmem x).1 List.mem_cons_self) with rfl | hx
          · exact Nat.le_refl _
          · exact hy1 x hx
        omega
      have hhead := h (key x)
      simp only [List.filter_cons, hkey, decide_true, if_true, List.cons.injEq] at hhead
      obtain ⟨rfl, -⟩ := hhead
      have htail : ∀ k, xs.filter (key · = k) = ys.filter (key · = k) := by
        intro k
        have hk := h k
        simp only [List.filter_cons] at hk
        split at hk
        · exact (List.cons.inj hk).2
        · exact hk
      rw [ih hx2 hy2 htail (mem_iff_of_filter_eq htail)]

/-- A list in the order of its keys that has the values of each key in the order of another list is
that list, sorted. -/
theorem eq_mergeSort {l l' : List α} (hl : l.Pairwise fun x y => key x ≤ key y)
    (h : ∀ k, l.filter (key · = k) = l'.filter (key · = k)) :
    l = l'.mergeSort fun x y => decide (key x ≤ key y) := by
  have hsorted : (l'.mergeSort fun x y => decide (key x ≤ key y)).Pairwise
      fun x y => decide (key x ≤ key y) = true :=
    List.pairwise_mergeSort key_le_trans key_le_total l'
  refine eq_of_filter_eq hl (hsorted.imp of_decide_eq_true) ?_
  intro k
  rw [h, filter_mergeSort]

end Stable

namespace TerminalReport

/-! ## Groups -/

/-- The hits of a method. -/
def hitsIn (hits : List Hit) (id : MethodId) : List Hit :=
  hits.filter (·.method = id)

/-- The methods with hits, by number. -/
def hitMethods (hits : List Hit) : List MethodId :=
  hits.foldl (fun ids h => insertIncreasing h.method ids) []

theorem hitMethods_concat (hits : List Hit) (h : Hit) :
    hitMethods (hits ++ [h]) = insertIncreasing h.method (hitMethods hits) := by
  rw [hitMethods, List.foldl_append]
  rfl

theorem increasing_hitMethods (hits : List Hit) : (hitMethods hits).Pairwise (· < ·) := by
  induction hits using List.reverseRecOn with
  | nil => exact .nil
  | append_singleton hits h ih =>
    rw [hitMethods_concat]
    exact pairwise_insertIncreasing h.method ih

theorem mem_hitMethods {hits : List Hit} {id : MethodId} :
    id ∈ hitMethods hits ↔ ∃ h ∈ hits, h.method = id := by
  induction hits using List.reverseRecOn with
  | nil => simp [hitMethods]
  | append_singleton hits h ih =>
    rw [hitMethods_concat, mem_insertIncreasing, ih]
    constructor
    · rintro (rfl | ⟨h', hmem, rfl⟩)
      · exact ⟨h, by simp, rfl⟩
      · exact ⟨h', List.mem_append_left _ hmem, rfl⟩
    · rintro ⟨h', hmem, rfl⟩
      rcases List.mem_append.1 hmem with hmem | hmem
      · exact .inr ⟨h', hmem, rfl⟩
      · rw [List.mem_singleton.1 hmem]
        exact .inl rfl

theorem hitsIn_concat_self (hits : List Hit) (h : Hit) :
    hitsIn (hits ++ [h]) h.method = hitsIn hits h.method ++ [h] := by
  simp [hitsIn]

theorem hitsIn_concat_of_ne {id : MethodId} {h : Hit} (hid : id ≠ h.method) (hits : List Hit) :
    hitsIn (hits ++ [h]) id = hitsIn hits id := by
  simp [hitsIn, Ne.symm hid]

theorem hitsIn_eq_nil {hits : List Hit} {id : MethodId} (h : ¬∃ h ∈ hits, h.method = id) :
    hitsIn hits id = [] := by
  rw [hitsIn, List.filter_eq_nil_iff]
  intro hit hmem hid
  exact h ⟨hit, hmem, of_decide_eq_true hid⟩

/-- The group of a method. -/
def groupOf (hits : List Hit) (id : MethodId) : Group := ⟨id, hitsIn hits id⟩

theorem map_groupOf_concat {h : Hit} {ids : List MethodId} (hids : ∀ id ∈ ids, id ≠ h.method)
    (hits : List Hit) : ids.map (groupOf (hits ++ [h])) = ids.map (groupOf hits) := by
  apply List.map_congr_left
  intro id hid
  rw [groupOf, hitsIn_concat_of_ne (hids id hid), groupOf]

/-- One step of the grouping: a hit is put behind those of its method, and a method without hits
so far gets its place by number. -/
theorem insertHit_map_groupOf {hits : List Hit} {h : Hit} {ids : List MethodId}
    (hincreasing : ids.Pairwise (· < ·))
    (hmem : (∃ h' ∈ hits, h'.method = h.method) → h.method ∈ ids) :
    insertHit h (ids.map (groupOf hits)) =
      (insertIncreasing h.method ids).map (groupOf (hits ++ [h])) := by
  have hfirst : h.method ∉ ids → groupOf (hits ++ [h]) h.method = ⟨h.method, [h]⟩ := by
    intro hnew
    rw [groupOf, hitsIn_concat_self, hitsIn_eq_nil (mt hmem hnew), List.nil_append]
  induction ids with
  | nil =>
    show [(⟨h.method, [h]⟩ : Group)] = [groupOf (hits ++ [h]) h.method]
    rw [hfirst List.not_mem_nil]
  | cons id ids ih =>
    obtain ⟨hid, hids⟩ := List.pairwise_cons.1 hincreasing
    show (if h.method = id then (⟨id, hitsIn hits id ++ [h]⟩ : Group) :: ids.map (groupOf hits)
      else if h.method < id then ⟨h.method, [h]⟩ :: (id :: ids).map (groupOf hits)
      else groupOf hits id :: insertHit h (ids.map (groupOf hits))) = _
    rw [insertIncreasing]
    by_cases heq : h.method = id
    · have hlt : ¬h.method < id := by
        rw [heq]
        exact Nat.lt_irrefl id
      have hrest : ∀ id' ∈ ids, id' ≠ h.method := by
        intro id' hid'
        rw [heq]
        exact Nat.ne_of_gt (hid id' hid')
      rw [if_pos heq, if_neg hlt, if_pos heq, List.map_cons, map_groupOf_concat hrest, ← heq,
        ← hitsIn_concat_self, groupOf]
    · by_cases hlt : h.method < id
      · have hrest : ∀ id' ∈ id :: ids, id' ≠ h.method := by
          intro id' hid'
          rcases List.mem_cons.1 hid' with rfl | hid'
          · exact Nat.ne_of_gt hlt
          · exact Nat.ne_of_gt (Nat.lt_trans hlt (hid id' hid'))
        have hnew : h.method ∉ id :: ids := fun hmem' => hrest _ hmem' rfl
        rw [if_neg heq, if_pos hlt, if_pos hlt, ← map_groupOf_concat hrest, ← hfirst hnew]
        rfl
      · have hother : (∃ h' ∈ hits, h'.method = h.method) → h.method ∈ ids := by
          intro hhit
          exact (List.mem_cons.1 (hmem hhit)).resolve_left heq
        have hfirst' : h.method ∉ ids → groupOf (hits ++ [h]) h.method = ⟨h.method, [h]⟩ := by
          intro hnew
          exact hfirst (List.not_mem_cons_of_ne_of_not_mem heq hnew)
        rw [if_neg heq, if_neg hlt, if_neg hlt, if_neg heq, List.map_cons, ih hids hother hfirst',
          groupOf, groupOf, hitsIn_concat_of_ne (Ne.symm heq)]

/-- The groups are those of the methods with hits, by number, each with the hits of its method in
their order. -/
theorem groups_eq (hits : List Hit) : groups hits = (hitMethods hits).map (groupOf hits) := by
  induction hits using List.reverseRecOn with
  | nil => rfl
  | append_singleton hits h ih =>
    have hstep : groups (hits ++ [h]) = insertHit h (groups hits) := by
      rw [groups, List.foldl_append]
      rfl
    rw [hstep, ih, insertHit_map_groupOf (increasing_hitMethods hits) mem_hitMethods.2,
      hitMethods_concat]

example :
    groups [⟨4, 0, "a", "a", .anyStatement⟩, ⟨2, 0, "a", "a", .anyStatement⟩,
      ⟨4, 1, "b", "b", .anyStatement⟩] =
      [⟨2, [⟨2, 0, "a", "a", .anyStatement⟩]⟩,
        ⟨4, [⟨4, 0, "a", "a", .anyStatement⟩, ⟨4, 1, "b", "b", .anyStatement⟩]⟩] := by
  decide

theorem method_of_mem_hitsIn {hits : List Hit} {id : MethodId} {h : Hit}
    (hmem : h ∈ hitsIn hits id) : h.method = id :=
  of_decide_eq_true (List.mem_filter.1 hmem).2

/-- Of the hits of one method, all or none are in another. -/
theorem filter_hitsIn (hits : List Hit) (id id' : MethodId) :
    (hitsIn hits id).filter (·.method = id') = if id = id' then hitsIn hits id' else [] := by
  split
  next heq =>
    subst heq
    refine List.filter_eq_self.2 ?_
    intro h hmem
    exact decide_eq_true (method_of_mem_hitsIn hmem)
  next hne =>
    refine List.filter_eq_nil_iff.2 ?_
    intro h hmem hid'
    exact hne ((method_of_mem_hitsIn hmem).symm.trans (of_decide_eq_true hid'))

/-- Only the place of one method in a list without repetitions counts. -/
theorem flatMap_ite {ids : List MethodId} (hnodup : ids.Nodup) {id : MethodId} (hmem : id ∈ ids)
    (hits : List Hit) : (ids.flatMap fun id' => if id' = id then hits else []) = hits := by
  induction ids with
  | nil => exact absurd hmem List.not_mem_nil
  | cons id' ids ih =>
    obtain ⟨hnew, hnodup⟩ := List.nodup_cons.1 hnodup
    rw [List.flatMap_cons]
    by_cases heq : id' = id
    · subst heq
      have hrest : (ids.flatMap fun id'' => if id'' = id' then hits else []) = [] := by
        simp only [List.flatMap_eq_nil_iff, ite_eq_right_iff]
        rintro id'' hid'' rfl
        exact absurd hid'' hnew
      rw [if_pos rfl, hrest, List.append_nil]
    · rw [if_neg heq, List.nil_append]
      exact ih hnodup ((List.mem_cons.1 hmem).resolve_left (Ne.symm heq))

/-- Hits that are taken method by method, by number, are in the order of their methods. -/
theorem pairwise_flatMap_method {ids : List MethodId} (hincreasing : ids.Pairwise (· < ·))
    {hitsOf : MethodId → List Hit} (hmethod : ∀ id, ∀ h ∈ hitsOf id, h.method = id) :
    (ids.flatMap hitsOf).Pairwise fun x y => x.method ≤ y.method := by
  rw [List.pairwise_flatMap]
  constructor
  · intro id _
    refine List.pairwise_of_forall_mem_list ?_
    intro x hx y hy
    exact Nat.le_of_eq ((hmethod id x hx).trans (hmethod id y hy).symm)
  · refine hincreasing.imp ?_
    intro id id' hlt x hx y hy
    rw [hmethod id x hx, hmethod id' y hy]
    exact Nat.le_of_lt hlt

/-- The hits of all groups, one after another, are the hits in stable order by method. -/
theorem flatMap_hitsIn (hits : List Hit) :
    (hitMethods hits).flatMap (hitsIn hits) =
      hits.mergeSort fun x y => decide (x.method ≤ y.method) := by
  refine @eq_mergeSort Hit Hit.method _ _ ?_ ?_
  · exact pairwise_flatMap_method (increasing_hitMethods hits) fun _ _ => method_of_mem_hitsIn
  · intro id
    rw [List.filter_flatMap]
    simp only [filter_hitsIn]
    show _ = hitsIn hits id
    by_cases hmem : id ∈ hitMethods hits
    · exact flatMap_ite ((increasing_hitMethods hits).imp Nat.ne_of_lt) hmem _
    · rw [hitsIn_eq_nil (mt mem_hitMethods.2 hmem)]
      simp

/-! ## The two reports -/

/-- The hits of a finished program are found in the order of the methods' numbers. -/
theorem pairwise_hits (p : Program) (keywords : KeywordList) (policy : Policy) (found : Matcher) :
    (Inspection.runWith p.view keywords policy found).1.hits.Pairwise
      fun x y => x.method ≤ y.method := by
  rw [Inspection.hits_runWith, Inspection.expectedHits]
  refine pairwise_flatMap_method List.pairwise_lt_range ?_
  intro id h hmem
  exact (Inspection.mem_expectedInBody.1 hmem).1

/-- How a report lists the hits of an audit under the methods `ids`. -/
structure Listing (a : Audit) (showRoots : Bool) (ids : List MethodId) : Prop where
  /-- The methods stand in the order of their numbers, each once. -/
  increasing : ids.Pairwise (· < ·)
  /-- They are the methods with hits. -/
  mem_ids : ∀ id, id ∈ ids ↔ ∃ h ∈ a.inspection.hits, h.method = id
  /-- The text of the report has for each method its heading, its hits as they were found and, if
  they are shown, its root callers. -/
  printed : ∀ coloured, render coloured showRoots a =
    openingText coloured a
      ++ String.join (ids.map fun id =>
          groupText coloured a showRoots ⟨id, a.inspection.hits.filter (·.method = id)⟩)
      ++ closingText coloured a
  /-- Read across all methods, the hits are in stable order by method. -/
  hits : (ids.flatMap fun id => a.inspection.hits.filter (·.method = id)) =
    a.inspection.hits.mergeSort fun x y => decide (x.method ≤ y.method)

/-- How a report with the hits of an audit under the methods `ids` agrees with its document. -/
structure SameAsDocument (a : Audit) (ids : List MethodId) : Prop where
  /-- Both show the same hits in the same order. -/
  hits : (ids.flatMap fun id => a.inspection.hits.filter (·.method = id)).map
      (fun h => (h.index, h.keyword, h.text)) =
    (ReportDocument.ofAudit a).hits.map fun r => (r.index, r.keyword, r.text)
  /-- The document has the hits of one method after those of another, too. -/
  records : (ReportDocument.ofAudit a).hits = ids.flatMap fun id =>
    (a.inspection.hits.filter (·.method = id)).map (ReportDocument.hitRecord a)
  /-- The root callers that can be shown under a method are those of each of its hits. -/
  roots : ∀ id ∈ ids, ∀ h ∈ a.inspection.hits, h.method = id → ∀ coloured,
    List.Forall₂ (fun line text => ∃ root,
        line = rootText coloured (a.view.shortName root) (a.view.signatureOr unknownMethod root) ∧
        text = a.view.signatureOr (methodLabel root) root)
      (rootTexts coloured a id) (ReportDocument.hitRecord a h).rootCallers

theorem listing_hitMethods (a : Audit) (showRoots : Bool) :
    Listing a showRoots (hitMethods a.inspection.hits) where
  increasing := increasing_hitMethods _
  mem_ids := fun _ => mem_hitMethods
  printed := by
    intro coloured
    rw [render_eq, groups_eq, List.map_map]
    rfl
  hits := flatMap_hitsIn _

/-- Where the hits are in the order of the methods, both reports list them alike. -/
theorem sameAsDocument_hitMethods {a : Audit}
    (h : a.inspection.hits.Pairwise fun x y => x.method ≤ y.method) :
    SameAsDocument a (hitMethods a.inspection.hits) := by
  have hsame : (hitMethods a.inspection.hits).flatMap (hitsIn a.inspection.hits) =
      a.inspection.hits :=
    (flatMap_hitsIn _).trans (List.mergeSort_of_pairwise (h.imp decide_eq_true))
  constructor
  case hits =>
    show ((hitMethods a.inspection.hits).flatMap (hitsIn a.inspection.hits)).map _ = _
    rw [hsame, ReportDocument.ofAudit, List.map_map]
    rfl
  case records =>
    calc (ReportDocument.ofAudit a).hits
        = ((hitMethods a.inspection.hits).flatMap (hitsIn a.inspection.hits)).map
            (ReportDocument.hitRecord a) := by
          rw [hsame]
          rfl
      _ = _ := List.map_flatMap
  case roots =>
    intro id _ hit _ hid coloured
    rw [rootTexts, ReportDocument.hitRecord, hid, List.forall₂_map_left_iff,
      List.forall₂_map_right_iff, List.forall₂_same]
    intro root _
    exact ⟨root, rfl, rfl⟩

/-- **Grouping loses and repeats nothing**: the text of a terminal report has one heading for each
method with hits, in the order of the methods' numbers, and under it the hits of the method in the
order in which they were found, so that it lists all hits in stable order by method.  With colours,
a text is the same between control sequences.  Where the hits are those of a finished program, the
JSON report lists the same hits in the same order, each with the root callers that are shown under
its method. -/
theorem hits_listed_by_method (a : Audit) (showRoots : Bool) :
    (∃ ids, Listing a showRoots ids ∧
      ∀ (p : Program) (keywords : KeywordList) (policy : Policy) (found : Matcher),
        a.inspection.hits = (Inspection.runWith p.view keywords policy found).1.hits →
          SameAsDocument a ids) ∧
    ∀ (ink : Ink) (parts : List String), ink ≠ .plain →
      (∀ part ∈ parts, ¬"\x1b[0m".toList <:+: part.toList) →
        ink.paint (String.intercalate "\x1b[0m" parts) =
          ink.opening ++ String.intercalate ("\x1b[0m" ++ ink.opening) parts ++ "\x1b[0m" := by
  constructor
  · refine ⟨hitMethods a.inspection.hits, listing_hitMethods a showRoots, ?_⟩
    intro p keywords policy found hhits
    refine sameAsDocument_hitMethods ?_
    rw [hhits]
    exact pairwise_hits p keywords policy found
  · intro ink parts hink hparts
    exact Ink.paint_intercalate hink hparts

/-- A program with hits in both of its methods. -/
def runAndStop : Program :=
  .ofParts #[.ofName "a.Main"]
    #[⟨"<a.Main: void run()>", 0, [⟨"idkey", none⟩]⟩,
      ⟨"<a.Main: void stop()>", 0, [⟨"nothing", none⟩, ⟨"a key", none⟩]⟩]
    [(0, 1)]

/-- The report on the program lists the two hits of the first method and the hit of the second, and
paints the headings. -/
theorem hits_listed_by_method_runAndStop :
    let policy : Policy := { interestedApiOnly := false }
    let a := (runAndStop.audit (.ofList ["id", "key"]) policy).1
    a.inspection.hits =
      (Inspection.runWith runAndStop.view (.ofList ["id", "key"]) policy .substring).1.hits ∧
    render false false a = openingText false a
      ++ ("<a.Main: void run()>\n  #0 [id] idkey\n  #0 [key] idkey\n"
        ++ "<a.Main: void stop()>\n  #1 [key] a key\n") ++ closingText false a ∧
    ((ReportDocument.ofAudit a).hits.map fun r => (r.index, r.keyword, r.text)) =
      [(0, "id", "idkey"), (0, "key", "idkey"), (1, "key", "a key")] ∧
    heading.paint "<a.Main: void run()>" = "\x1b[1;36m<a.Main: void run()>\x1b[0m" := by
  intro policy a
  have hhits : a.inspection.hits =
      (Inspection.runWith runAndStop.view (.ofList ["id", "key"]) policy .substring).1.hits :=
    rfl
  have hlist : a.inspection.hits = [⟨0, 0, "idkey", "id", .anyStatement⟩,
      ⟨0, 0, "idkey", "key", .anyStatement⟩, ⟨1, 1, "a key", "key", .anyStatement⟩] := by
    rw [hhits, Inspection.hits_runWith]
    decide
  obtain ⟨⟨ids, hlisting, hsame⟩, hpaint⟩ := hits_listed_by_method a false
  have hids : ids = [0, 1] := by
    refine hlisting.increasing.eq_of_mem_iff (by decide) ?_
    intro id
    rw [hlisting.mem_ids, hlist]
    simp [eq_comm]
  refine ⟨hhits, ?_, ?_, ?_⟩
  · rw [hlisting.printed false, hids, hlist]
    refine congrArg (openingText false a ++ · ++ closingText false a) ?_
    have hview : a.view = runAndStop.view := rfl
    simp only [groupText, hview, Bool.false_eq_true, if_false]
    decide
  · rw [← (hsame runAndStop _ policy .substring hhits).hits, hids, hlist]
    decide
  · have hclean : ¬"\x1b[0m".toList <:+: "<a.Main: void run()>".toList := by
      intro hinfix
      have hescape : '\x1b' ∈ "<a.Main: void run()>".toList := hinfix.subset (by decide)
      exact absurd hescape (by decide)
    have hheading := hpaint heading ["<a.Main: void run()>"] (by decide)
      (List.forall_mem_singleton.2 hclean)
    rw [String.intercalate_singleton, String.intercalate_singleton] at hheading
    exact hheading.trans (by decide)

end TerminalReport
end KeywordAudit
