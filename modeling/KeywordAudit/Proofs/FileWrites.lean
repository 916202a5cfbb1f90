import Mathlib.Data.List.Basic
import KeywordAudit.FileTree

/-!
# What a write changes

A write that succeeds puts a text at one place, and at every other place stands what stood there
before.  The second part is not for free, since a directory need not be listed: a place also counts
as a directory when something below it is listed.  But the directory of the new file is there before
the write, and so are all directories above it, so no new one comes into being.

Since the directories are the same as before, every path leads to the same place as before.  So all
paths to the place of the file, however they are spelled, lead to the text, and any other path finds
what it found.
-/

namespace KeywordAudit
namespace FileTree

/-! ## Places -/

/-- Something stands at a place that is the current directory or above it, and at each place where
something is listed or under which something is listed. -/
theorem exists_entryAt?_iff {tree : FileTree} {place : Location} :
    (∃ entry, tree.entryAt? place = some entry) ↔
      place <+: tree.current ∨ ∃ e ∈ tree.entries, place <+: e.1 := by
  unfold entryAt?
  split
  next hup => exact ⟨fun _ => .inl (List.isPrefixOf_iff_prefix.1 hup), fun _ => ⟨_, rfl⟩⟩
  next hup =>
    rw [List.isPrefixOf_iff_prefix] at hup
    split
    next entry hlisted =>
      obtain ⟨before, after, heq, -⟩ := List.lookup_eq_some_iff.1 hlisted
      refine ⟨fun _ => .inr ⟨(place, entry), ?_, List.prefix_rfl⟩, fun _ => ⟨entry, rfl⟩⟩
      rw [heq]
      exact List.mem_append_right _ List.mem_cons_self
    next =>
      simp only [List.any_eq_true, List.isPrefixOf_iff_prefix]
      split
      next hbelow => exact ⟨fun _ => .inr hbelow, fun _ => ⟨_, rfl⟩⟩
      next hnone =>
        refine ⟨fun ⟨_, h⟩ => absurd h (by simp), fun h => ?_⟩
        exact absurd (h.resolve_left hup) hnone

/-- Above a place where something stands, something stands too. -/
theorem exists_entryAt?_of_prefix {tree : FileTree} {above place : Location} {entry : FileEntry}
    (h : tree.entryAt? place = some entry) (habove : above <+: place) :
    ∃ e, tree.entryAt? above = some e := by
  rcases exists_entryAt?_iff.1 ⟨entry, h⟩ with hup | ⟨e, he, hplace⟩
  · exact exists_entryAt?_iff.2 (.inl (habove.trans hup))
  · exact exists_entryAt?_iff.2 (.inr ⟨e, he, habove.trans hplace⟩)

/-! ## Putting an entry at a place -/

theorem entryAt?_insert_self {tree : FileTree} {place : Location} (entry : FileEntry)
    (h : tree.entryAt? place ≠ some .directory) :
    (tree.insert place entry).entryAt? place = some entry := by
  have hbelow : place.isPrefixOf tree.current = false := by
    rw [Bool.eq_false_iff]
    intro hprefix
    rw [entryAt?, if_pos hprefix] at h
    exact h rfl
  have hcurrent : (tree.insert place entry).current = tree.current := rfl
  rw [entryAt?, hcurrent, hbelow]
  simp [insert]

theorem lookup_insert_of_ne {tree : FileTree} {place other : Location} (entry : FileEntry)
    (hne : other ≠ place) :
    (tree.insert place entry).entries.lookup other = tree.entries.lookup other := by
  have hhead : (other == place) = false := beq_false_of_ne hne
  rw [insert, List.lookup_cons, hhead]
  induction tree.entries with
  | nil => rfl
  | cons e entries ih =>
    by_cases he : e.1 = place
    · have hother : (other == e.1) = false := by
        rw [he]
        exact hhead
      rw [List.filter_cons_of_neg (by simp [he]), List.lookup_cons, hother]
      exact ih
    · rw [List.filter_cons_of_pos (by simp [he]), List.lookup_cons, List.lookup_cons]
      cases other == e.1 with
      | true => rfl
      | false => exact ih

/-- Two trees with one current directory agree on a place if they list the same there and both have
something there, or neither. -/
theorem entryAt?_congr {tree tree' : FileTree} {place : Location}
    (hcurrent : tree'.current = tree.current)
    (hlisted : tree'.entries.lookup place = tree.entries.lookup place)
    (hsome : (∃ e, tree'.entryAt? place = some e) ↔ ∃ e, tree.entryAt? place = some e) :
    tree'.entryAt? place = tree.entryAt? place := by
  unfold entryAt? at hsome ⊢
  rw [hcurrent, hlisted] at hsome ⊢
  split
  next => rfl
  next hup =>
    simp only [hup] at hsome
    split
    next => rfl
    next hnone =>
      -- what is not listed is a directory or nothing
      simp only [hnone] at hsome
      split <;> split <;> simp_all

/-- An entry that is put at a place changes no other place, provided that something stands at each
place above it. -/
theorem entryAt?_insert_of_ne {tree : FileTree} {place other : Location} (entry : FileEntry)
    (hne : other ≠ place) (habove : other <+: place → ∃ e, tree.entryAt? other = some e) :
    (tree.insert place entry).entryAt? other = tree.entryAt? other := by
  refine entryAt?_congr rfl (lookup_insert_of_ne entry hne) ?_
  rw [exists_entryAt?_iff]
  constructor
  · rintro (hup | ⟨e, he, hother⟩)
    · exact exists_entryAt?_iff.2 (.inl hup)
    · rcases List.mem_cons.1 he with rfl | he
      · exact habove hother
      · exact exists_entryAt?_iff.2 (.inr ⟨e, (List.mem_filter.1 he).1, hother⟩)
  · intro hsome
    rcases exists_entryAt?_iff.1 hsome with hup | ⟨e, he, hother⟩
    · exact .inl hup
    · by_cases heq : e.1 = place
      · refine .inr ⟨(place, entry), List.mem_cons_self, ?_⟩
        rw [← heq]
        exact hother
      · exact .inr ⟨e, List.mem_cons_of_mem _ (List.mem_filter.2 ⟨he, by simp [heq]⟩), hother⟩

/-! ## Following a path -/

theorem expectDirectory_eq_ok {tree : FileTree} {place : Location} :
    tree.expectDirectory place = .ok () ↔ tree.entryAt? place = some .directory := by
  unfold expectDirectory
  split <;> simp_all

/-- A name leads to a place in the directory. -/
theorem hop_name {name : String} (hname : name ≠ "") (hdot : name ≠ ".") (hup : name ≠ "..")
    (directory : Location) : hop directory name = directory ++ [name] := by
  rw [hop, if_neg (by simp [hname, hdot]), if_neg hup]

/-- A step is taken from a directory only. -/
theorem walk_cons_eq_ok {tree : FileTree} {place target : Location} {step : String}
    {steps : List String} : tree.walk place (step :: steps) = .ok target ↔
      tree.entryAt? place = some .directory ∧ tree.walk (hop place step) steps = .ok target := by
  rw [walk, ← expectDirectory_eq_ok]
  cases tree.expectDirectory place with
  | error e => exact ⟨nofun, fun h => nomatch h.1⟩
  | ok _ => exact ⟨fun h => ⟨rfl, h⟩, fun h => h.2⟩

/-- A path leads to the same place in trees that have the same directories. -/
theorem walk_congr {tree tree' : FileTree}
    (hsame : ∀ place, tree'.entryAt? place = some .directory ↔
      tree.entryAt? place = some .directory) {place target : Location} {steps : List String} :
    tree'.walk place steps = .ok target ↔ tree.walk place steps = .ok target := by
  induction steps generalizing place with
  | nil => exact Iff.rfl
  | cons step steps ih => rw [walk_cons_eq_ok, walk_cons_eq_ok, hsame, ih]

/-- The last step is taken from a directory, which the steps before it lead to. -/
theorem walk_concat_eq_ok {tree : FileTree} {place target : Location} {steps : List String}
    {last : String} : tree.walk place (steps ++ [last]) = .ok target ↔
      ∃ directory, tree.walk place steps = .ok directory ∧
        tree.entryAt? directory = some .directory ∧ target = hop directory last := by
  induction steps generalizing place with
  | nil =>
    rw [List.nil_append, walk_cons_eq_ok, walk, walk, Except.ok.injEq]
    constructor
    · rintro ⟨hdirectory, rfl⟩
      exact ⟨place, rfl, hdirectory, rfl⟩
    · rintro ⟨directory, hplace, hdirectory, rfl⟩
      rw [Except.ok.inj hplace]
      exact ⟨hdirectory, rfl⟩
  | cons step steps ih =>
    rw [List.cons_append, walk_cons_eq_ok, ih]
    simp only [walk_cons_eq_ok, and_assoc, exists_and_left]

theorem resolve_eq {tree : FileTree} {path : String} (h : path ≠ "") : tree.resolve path =
    tree.walk (start tree.current path).1 (start tree.current path).2 := by
  rw [resolve, if_neg h]

/-- A path leads to the same place in trees that have the same directories. -/
theorem resolve_congr {tree tree' : FileTree} (hcurrent : tree'.current = tree.current)
    (hsame : ∀ place, tree'.entryAt? place = some .directory ↔
      tree.entryAt? place = some .directory) {path : String} {place : Location} :
    tree'.resolve path = .ok place ↔ tree.resolve path = .ok place := by
  unfold resolve
  rw [hcurrent]
  split
  · exact Iff.rfl
  · exact walk_congr hsame

theorem find_eq_ok {tree : FileTree} {path : String} {entry : FileEntry} :
    tree.find path = .ok entry ↔
      ∃ place, tree.resolve path = .ok place ∧ tree.entryAt? place = some entry := by
  rw [find]
  cases tree.resolve path with
  | error e => exact ⟨nofun, fun ⟨_, h, _⟩ => nomatch h⟩
  | ok place =>
    simp only [Except.ok.injEq, exists_eq_left']
    show Except.bind (.ok place) _ = _ ↔ _
    rw [Except.bind]
    cases tree.entryAt? place with
    | none => exact ⟨nofun, nofun⟩
    | some e => rw [Except.ok.injEq, Option.some.injEq]

/-! ## The place of a new file -/

/-- A path names a place for writing: it leads there, its last step is a name, and no directory
stands at the place. -/
structure Names (tree : FileTree) (path : String) (place : Location) : Prop where
  resolve : tree.resolve path = .ok place
  last : ∃ before name, (start tree.current path).2 = before ++ [name] ∧ name ≠ "" ∧ name ≠ "." ∧
    name ≠ ".."
  free : tree.entryAt? place ≠ some .directory

/-- The steps of a path without the empty ones at its end. -/
def trimSteps (steps : List String) : List String := (steps.reverse.dropWhile (· = "")).reverse

theorem trimSteps_concat {name : String} (h : name ≠ "") (before : List String) :
    trimSteps (before ++ [name]) = before ++ [name] := by
  rw [trimSteps, List.reverse_append, List.reverse_singleton, List.singleton_append,
    List.dropWhile_cons_of_neg (by simpa using h), List.reverse_cons, List.reverse_reverse]

theorem getLast_trimSteps {steps : List String} {name : String}
    (h : (trimSteps steps).getLast? = some name) : name ≠ "" := by
  rw [trimSteps, List.getLast?_reverse] at h
  have hhead := List.head?_dropWhile_not (fun s : String => decide (s = "")) steps.reverse
  rw [h] at hhead
  simpa using hhead

theorem trimSteps_of_length {steps : List String} (h : ¬ (trimSteps steps).length < steps.length) :
    trimSteps steps = steps := by
  have hsublist : (trimSteps steps).Sublist steps := by
    have hdrop : (steps.reverse.dropWhile fun s => decide (s = "")).Sublist steps.reverse :=
      List.dropWhile_sublist _
    have hreverse := hdrop.reverse
    rw [List.reverse_reverse] at hreverse
    exact hreverse
  exact hsublist.eq_of_length_le (Nat.le_of_not_lt h)

/-- The place that the last step names in a directory. -/
def placeIn (tree : FileTree) (steps : List String) (directory : Location) :
    Except FileError Location :=
  match (trimSteps steps).getLast? with
  | none => .error .isDirectory
  | some name =>
    if (trimSteps steps).length < steps.length || name = "." || name = ".." then .error .isDirectory
    else match tree.entryAt? (directory ++ [name]) with
      | some .directory => .error .isDirectory
      | _ => .ok (directory ++ [name])

theorem target_eq {tree : FileTree} {path : String} (h : path ≠ "") : tree.target path =
    (tree.walk (start tree.current path).1 (trimSteps (start tree.current path).2).dropLast).bind
      fun directory => (tree.expectDirectory directory).bind fun _ =>
        tree.placeIn (start tree.current path).2 directory := by
  rw [target, if_neg h]
  rfl

theorem placeIn_eq_ok {tree : FileTree} {steps : List String} {directory place : Location} :
    tree.placeIn steps directory = .ok place ↔
      ∃ name, steps = (trimSteps steps).dropLast ++ [name] ∧ place = directory ++ [name] ∧
        name ≠ "" ∧ name ≠ "." ∧ name ≠ ".." ∧ tree.entryAt? place ≠ some .directory := by
  constructor
  · intro h
    unfold placeIn at h
    split at h
    · cases h
    next name hname =>
      split at h
      · cases h
      next hplain =>
        simp only [Bool.or_eq_true, decide_eq_true_eq, not_or] at hplain
        obtain ⟨⟨hlength, hdot⟩, hup⟩ := hplain
        have hlast : (trimSteps steps).dropLast ++ [name] = trimSteps steps :=
          List.dropLast_append_getLast? name hname
        split at h
        · cases h
        next hfree =>
          cases h
          refine ⟨name, ?_, rfl, getLast_trimSteps hname, hdot, hup, hfree⟩
          rw [hlast, trimSteps_of_length hlength]
  · rintro ⟨name, hsteps, rfl, hname, hdot, hup, hfree⟩
    have htrim : trimSteps steps = steps := by
      rw [hsteps, trimSteps_concat hname]
    have hlast : (trimSteps steps).getLast? = some name := by
      rw [htrim, hsteps, List.getLast?_concat]
    have hplain :
        ((trimSteps steps).length < steps.length || name = "." || name = "..") = false := by
      simp [htrim, hdot, hup]
    unfold placeIn
    rw [hlast]
    simp only [hplain, Bool.false_eq_true, if_false]

/-- A path can be written exactly if it names a place. -/
theorem target_eq_ok {tree : FileTree} {path : String} {place : Location} :
    tree.target path = .ok place ↔ tree.Names path place := by
  by_cases hpath : path = ""
  · subst hpath
    exact ⟨nofun, fun h => nomatch h.resolve⟩
  rw [target_eq hpath]
  constructor
  · intro h
    cases hwalk : tree.walk (start tree.current path).1
        (trimSteps (start tree.current path).2).dropLast with
    | error e =>
      rw [hwalk] at h
      cases h
    | ok directory =>
      rw [hwalk, Except.bind] at h
      cases hdirectory : tree.expectDirectory directory with
      | error e =>
        rw [hdirectory] at h
        cases h
      | ok _ =>
        rw [hdirectory] at h
        obtain ⟨name, hsteps, hplace, hname, hdot, hup, hfree⟩ := placeIn_eq_ok.1 h
        refine ⟨?_, ⟨_, name, hsteps, hname, hdot, hup⟩, hfree⟩
        rw [resolve_eq hpath, hsteps, walk_concat_eq_ok]
        refine ⟨directory, hwalk, expectDirectory_eq_ok.1 hdirectory, ?_⟩
        rw [hplace, hop_name hname hdot hup]
  · rintro ⟨hresolve, ⟨before, name, hsteps, hname, hdot, hup⟩, hfree⟩
    rw [resolve_eq hpath, hsteps, walk_concat_eq_ok] at hresolve
    obtain ⟨directory, hwalk, hdirectory, hplace⟩ := hresolve
    rw [hop_name hname hdot hup] at hplace
    have hbefore : (trimSteps (before ++ [name])).dropLast = before := by
      rw [trimSteps_concat hname, List.dropLast_concat]
    have hin : tree.placeIn (before ++ [name]) directory = .ok place := by
      refine placeIn_eq_ok.2 ⟨name, ?_, hplace, hname, hdot, hup, hfree⟩
      rw [hbefore]
    rw [hsteps, hbefore, hwalk, Except.bind, expectDirectory_eq_ok.2 hdirectory]
    exact hin

/-! ## Writing -/

/-- What a write leaves: a text at one place, and everything else as it was. -/
structure Wrote (before : FileTree) (place : Location) (text : String) (after : FileTree) :
    Prop where
  /-- All paths that lead to the place lead to the text. -/
  here : ∀ path, before.resolve path = .ok place → after.read path = .ok text
  /-- All other paths find what they found, or nothing if they found nothing. -/
  elsewhere : ∀ path, before.resolve path ≠ .ok place →
    ∀ entry, after.find path = .ok entry ↔ before.find path = .ok entry
  /-- At all other places stands what stood there. -/
  frame : ∀ other, other ≠ place → after.entryAt? other = before.entryAt? other

/-- A text that is put at a place changes no other place. -/
theorem Names.entryAt?_of_ne {tree : FileTree} {path : String} {place other : Location}
    (h : tree.Names path place) (entry : FileEntry) (hne : other ≠ place) :
    (tree.insert place entry).entryAt? other = tree.entryAt? other := by
  obtain ⟨before, name, hsteps, hname, hdot, hup⟩ := h.last
  have hpath : path ≠ "" := by
    rintro rfl
    exact nomatch h.resolve
  have hresolve := h.resolve
  rw [resolve_eq hpath, hsteps] at hresolve
  obtain ⟨directory, -, hdirectory, hplace⟩ := walk_concat_eq_ok.1 hresolve
  rw [hop_name hname hdot hup] at hplace
  refine entryAt?_insert_of_ne entry hne fun habove => ?_
  -- what is above the place is the directory of the place, or above it
  rw [hplace] at habove hne
  exact exists_entryAt?_of_prefix hdirectory ((List.prefix_concat_iff.1 habove).resolve_left hne)

/-- A text that is put at a place is all that changes. -/
theorem Names.wrote {tree : FileTree} {path : String} {place : Location}
    (h : tree.Names path place) (text : String) :
    tree.Wrote place text (tree.insert place (.file (.text text))) := by
  have hself := entryAt?_insert_self (.file (.text text)) h.free
  -- there was no directory at the place, and there is none now
  have hsame : ∀ p, (tree.insert place (.file (.text text))).entryAt? p = some .directory ↔
      tree.entryAt? p = some .directory := by
    intro p
    by_cases hp : p = place
    · rw [hp, hself]
      exact ⟨nofun, fun hdirectory => absurd hdirectory h.free⟩
    · rw [h.entryAt?_of_ne _ hp]
  have hcurrent : (tree.insert place (.file (.text text))).current = tree.current := rfl
  have hresolve : ∀ other p, (tree.insert place (.file (.text text))).resolve other = .ok p ↔
      tree.resolve other = .ok p := fun _ _ => resolve_congr hcurrent hsame
  refine ⟨fun other hother => ?_, fun other hother entry => ?_, fun other => h.entryAt?_of_ne _⟩
  · have hfind : (tree.insert place (.file (.text text))).find other = .ok (.file (.text text)) :=
      find_eq_ok.2 ⟨place, (hresolve other place).2 hother, hself⟩
    rw [read, hfind]
    rfl
  · rw [find_eq_ok, find_eq_ok]
    refine exists_congr fun p => ?_
    rw [hresolve]
    refine and_congr_right fun hp => ?_
    have hne : p ≠ place := by
      rintro rfl
      exact hother hp
    rw [h.entryAt?_of_ne _ hne]

/-- **What a write changes.**  A text can be written by a path exactly if the path names a place,
and then it is at that place, and everything else is as it was. -/
theorem write_cases (tree : FileTree) (path text : String) :
    (∃ place after, tree.Names path place ∧ tree.write path text = .ok after ∧
      tree.Wrote place text after) ∨
    (∀ place, ¬ tree.Names path place) ∧ ∃ e, tree.write path text = .error e := by
  cases htarget : tree.target path with
  | error e =>
    refine .inr ⟨fun place hnames => ?_, e, ?_⟩
    · rw [target_eq_ok.2 hnames] at htarget
      cases htarget
    · rw [write, htarget]
      rfl
  | ok place =>
    have hnames := target_eq_ok.1 htarget
    refine .inl ⟨place, _, hnames, ?_, hnames.wrote text⟩
    rw [write, htarget]
    rfl

end FileTree
end KeywordAudit
