import KeywordAudit.Program.Builder

/-!
# What a builder keeps

A builder keeps two tables and for each of them an index from names to places.  Table and index
are inverse to each other, and every method is declared in a class of the table: this is what
`Builder.Consistent` says, and every step of a builder keeps it.

The methods of a consistent builder are best looked at through their outlines, which name a
method's class and not its number: later steps append outlines and never change one.
-/

namespace KeywordAudit

/-! ## Tables with an index -/

/-- The index gives for each name the place in the table where it stands. -/
def Indexed {α : Type} (key : α → String) (table : Array α) (index : Std.HashMap String Nat) :
    Prop :=
  ∀ (name : String) (id : Nat), index[name]? = some id ↔ ∃ a, table[id]? = some a ∧ key a = name

namespace Indexed

variable {α : Type} {key : α → String} {table : Array α} {index : Std.HashMap String Nat}

theorem empty : Indexed key #[] ∅ := by
  intro name id
  simp

/-- A name without a place stands nowhere in the table. -/
theorem ne_of_getElem? (h : Indexed key table index) {name : String} (hnew : index[name]? = none)
    {id : Nat} {a : α} (ha : table[id]? = some a) : key a ≠ name := by
  intro hname
  rw [(h name id).2 ⟨a, ha, hname⟩] at hnew
  exact absurd hnew (by simp)

/-- A new name is put at the end of the table. -/
theorem push (h : Indexed key table index) {a : α} (hnew : index[key a]? = none) :
    Indexed key (table.push a) (index.insert (key a) table.size) := by
  intro name id
  rw [Std.HashMap.getElem?_insert, Array.getElem?_push]
  -- the new name had no place, so its only place is the last; other names keep theirs
  by_cases hname : key a = name
  · rw [if_pos (beq_iff_eq.2 hname), Option.some.injEq]
    constructor
    · rintro rfl
      exact ⟨a, if_pos rfl, hname⟩
    · rintro ⟨a', ha', hname'⟩
      split at ha'
      next hid => exact hid.symm
      next =>
        rw [hname] at hnew
        exact absurd hname' (h.ne_of_getElem? hnew ha')
  · have hbeq : (key a == name) = false := beq_eq_false_iff_ne.2 hname
    rw [hbeq, if_neg (by decide), h name id]
    constructor
    · rintro ⟨a', ha', hname'⟩
      have hid : id ≠ table.size := by
        have hlt := (Array.getElem?_eq_some_iff.1 ha').1
        omega
      exact ⟨a', by rw [if_neg hid]; exact ha', hname'⟩
    · rintro ⟨a', ha', hname'⟩
      split at ha'
      · rw [Option.some.inj ha'] at hname
        exact absurd hname' hname
      · exact ⟨a', ha', hname'⟩

/-- A name has one place in the table. -/
theorem place_unique (h : Indexed key table index) {i j : Nat} {a a' : α}
    (hi : table[i]? = some a) (hj : table[j]? = some a') (hkey : key a = key a') : i = j := by
  have hi' : index[key a']? = some i := (h _ i).2 ⟨a, hi, hkey⟩
  have hj' : index[key a']? = some j := (h _ j).2 ⟨a', hj, rfl⟩
  rw [hi', Option.some.injEq] at hj'
  exact hj'

/-- No two entries of the table have the same name. -/
theorem nodup (h : Indexed key table index) : (table.toList.map key).Nodup := by
  rw [List.nodup_iff_pairwise_ne, List.pairwise_map, List.pairwise_iff_getElem]
  intro i j hi hj hij hkey
  have hplace : i = j :=
    h.place_unique (Array.getElem?_eq_getElem hi) (Array.getElem?_eq_getElem hj) hkey
  omega

/-- A table has one index. -/
theorem getElem?_eq (h : Indexed key table index) {index' : Std.HashMap String Nat}
    (h' : Indexed key table index') (name : String) : index'[name]? = index[name]? := by
  ext id
  rw [h name id, h' name id]

end Indexed

/-- The index that a finished program makes of its methods is one, if no signature repeats. -/
theorem indexed_signatureIndex {methods : Array Method}
    (hnodup : (methods.toList.map Method.signature).Nodup) :
    Indexed Method.signature methods (signatureIndex methods.toList) := by
  have hkeys : (signatureEntries methods.toList).map Prod.fst =
      methods.toList.map Method.signature := by
    rw [signatureEntries, List.map_map, ← List.zipIdx_map_fst 0 methods.toList, List.map_map,
      List.zipIdx_map_fst]
    rfl
  have hdistinct : (signatureEntries methods.toList).Pairwise
      fun a b => (a.1 == b.1) = false := by
    rw [← hkeys, List.nodup_iff_pairwise_ne, List.pairwise_map] at hnodup
    exact hnodup.imp fun hne => beq_eq_false_iff_ne.2 hne
  have hentry : ∀ (id : MethodId) (m : Method), methods[id]? = some m →
      (signatureIndex methods.toList)[m.signature]? = some id := by
    intro id m hm
    refine Std.HashMap.getElem?_ofList_of_mem (beq_self_eq_true m.signature) hdistinct ?_
    rw [← Array.getElem?_toList] at hm
    exact List.mem_map.2 ⟨(m, id), List.mk_mem_zipIdx_iff_getElem?.2 hm, rfl⟩
  intro signature id
  constructor
  · intro hid
    have hmem : signature ∈ methods.toList.map Method.signature := by
      -- a signature that no method has would have no entry
      refine Decidable.byContradiction fun hnot => ?_
      have hnone : (signatureIndex methods.toList)[signature]? = none := by
        refine Std.HashMap.getElem?_ofList_of_contains_eq_false ?_
        rw [hkeys, List.contains_eq_mem]
        exact decide_eq_false hnot
      rw [hnone] at hid
      exact absurd hid (by simp)
    obtain ⟨m, hm, rfl⟩ := List.mem_map.1 hmem
    obtain ⟨place, hplace⟩ := List.mem_iff_getElem?.1 hm
    rw [Array.getElem?_toList] at hplace
    rw [hentry place m hplace, Option.some.injEq] at hid
    rw [hid] at hplace
    exact ⟨m, hplace, rfl⟩
  · rintro ⟨m, hm, rfl⟩
    exact hentry id m hm

namespace Builder

/-! ## Consistent builders -/

/-- Both tables have their index, and every method is declared in a class of the table. -/
structure Consistent (b : Builder) : Prop where
  classes : Indexed ClassDecl.name b.classes b.classIndex
  methods : Indexed Method.signature b.methods b.methodIndex
  owners : ∀ (id : MethodId) (m : Method), b.methods[id]? = some m → m.owner < b.classes.size

theorem consistent_empty : empty.Consistent where
  classes := Indexed.empty
  methods := Indexed.empty
  owners := by
    intro id m h
    exact absurd h (by simp [empty])

variable {b : Builder}

/-- A class at the end of the table. -/
def withClass (b : Builder) (c : ClassDecl) : Builder :=
  { b with
    classes := b.classes.push c
    classIndex := b.classIndex.insert c.name b.classes.size }

/-- A method at the end of the table. -/
def withMethod (b : Builder) (m : Method) : Builder :=
  { b with
    methods := b.methods.push m
    methodIndex := b.methodIndex.insert m.signature b.methods.size }

theorem Consistent.withClass (h : b.Consistent) {c : ClassDecl}
    (hnew : b.classIndex[c.name]? = none) : (b.withClass c).Consistent where
  classes := h.classes.push hnew
  methods := h.methods
  owners := by
    intro id m hm
    show m.owner < (b.classes.push c).size
    rw [Array.size_push]
    exact Nat.lt_succ_of_lt (h.owners id m hm)

theorem Consistent.withMethod (h : b.Consistent) {m : Method}
    (hnew : b.methodIndex[m.signature]? = none) (howner : m.owner < b.classes.size) :
    (b.withMethod m).Consistent where
  classes := h.classes
  methods := h.methods.push hnew
  owners := by
    intro id m' hm'
    have hm' : (b.methods.push m)[id]? = some m' := hm'
    rw [Array.getElem?_push] at hm'
    split at hm'
    · rw [← Option.some.inj hm']
      exact howner
    · exact h.owners id m' hm'

/-! ## What a step does -/

/-- Adding a class does nothing if its name is known, and else puts it at the end. -/
theorem addClass_cases (b : Builder) (c : ClassDecl) :
    (∃ id events, b.classIndex[c.name]? = some id ∧ b.addClass c = (b, id, events)) ∨
    (b.classIndex[c.name]? = none ∧ b.addClass c = (b.withClass c, b.classes.size, [])) := by
  unfold addClass
  cases hid : b.classIndex[c.name]? with
  | none => exact .inr ⟨rfl, rfl⟩
  | some id =>
    left
    dsimp only
    split
    · split
      · exact ⟨id, _, rfl, rfl⟩
      · exact ⟨id, _, rfl, rfl⟩
    · exact ⟨id, _, rfl, rfl⟩

/-- The class of a name is found as if it were added with the package that its name says. -/
theorem classNamed_eq (b : Builder) (name : String) :
    b.classNamed name = ((b.addClass (.ofName name)).1, (b.addClass (.ofName name)).2.1) := by
  unfold classNamed
  cases hid : b.classIndex[name]? with
  | none => rfl
  | some id =>
    rcases addClass_cases b (.ofName name) with ⟨id', events, hid', heq⟩ | ⟨hnone, -⟩
    · have hid' : b.classIndex[name]? = some id' := hid'
      rw [hid, Option.some.injEq] at hid'
      rw [heq, hid']
    · have hnone : b.classIndex[name]? = none := hnone
      rw [hid] at hnone
      exact absurd hnone (by simp)

/-- The builder after a method was put at the end, its class having been added before. -/
def withMethodIn (b : Builder) (signature className : String) (body : List Statement) : Builder :=
  (b.addClass (.ofName className)).1.withMethod
    ⟨signature, (b.addClass (.ofName className)).2.1, body⟩

/-! ## Classes by name -/

/-- The class of a name. -/
def declared (b : Builder) (name : String) : Option ClassDecl :=
  (b.classIndex[name]?).bind fun id => b.classes[id]?

/-- The place of a known class. -/
theorem Consistent.declared_of_index (h : b.Consistent) {name : String} {id : ClassId}
    (hid : b.classIndex[name]? = some id) :
    ∃ c, b.classes[id]? = some c ∧ c.name = name ∧ b.declared name = some c := by
  obtain ⟨c, hc, hname⟩ := (h.classes name id).1 hid
  refine ⟨c, hc, hname, ?_⟩
  rw [declared, hid, Option.bind_some, hc]

/-- The class of a name is the one that stands under this name in the table. -/
theorem Consistent.declared_eq_some (h : b.Consistent) {name : String} {c : ClassDecl} :
    b.declared name = some c ↔ c.name = name ∧ ∃ id : ClassId, b.classes[id]? = some c := by
  rw [declared, Option.bind_eq_some_iff]
  constructor
  · rintro ⟨id, hid, hc⟩
    obtain ⟨c', hc', hname⟩ := (h.classes name id).1 hid
    rw [hc, Option.some.injEq] at hc'
    rw [hc']
    exact ⟨hname, id, hc' ▸ hc⟩
  · rintro ⟨hname, id, hc⟩
    exact ⟨id, (h.classes name id).2 ⟨c, hc, hname⟩, hc⟩

/-- A new class is known by its name, and all others are known as before. -/
theorem Consistent.declared_withClass (h : b.Consistent) (c : ClassDecl) (name : String) :
    (b.withClass c).declared name = if name = c.name then some c else b.declared name := by
  show ((b.classIndex.insert c.name b.classes.size)[name]?).bind
    (fun id => (b.classes.push c)[id]?) = _
  rw [Std.HashMap.getElem?_insert]
  by_cases hname : name = c.name
  · rw [if_pos (beq_iff_eq.2 hname.symm), if_pos hname, Option.bind_some, Array.getElem?_push_size]
  · have hbeq : (c.name == name) = false := beq_eq_false_iff_ne.2 (Ne.symm hname)
    rw [hbeq, if_neg (by decide), if_neg hname]
    cases hid : b.classIndex[name]? with
    | none => rw [declared, hid, Option.bind_none, Option.bind_none]
    | some id =>
      obtain ⟨c', hc', -, hdecl⟩ := h.declared_of_index hid
      have hne : id ≠ b.classes.size := Nat.ne_of_lt (Array.getElem?_eq_some_iff.1 hc').1
      rw [hdecl, Option.bind_some, Array.getElem?_push, if_neg hne, hc']

/-! ## Adding a class -/

section AddClass

variable (c : ClassDecl)

theorem Consistent.addClass (h : b.Consistent) : (b.addClass c).1.Consistent := by
  rcases addClass_cases b c with ⟨id, events, -, heq⟩ | ⟨hnew, heq⟩
  · rw [heq]
    exact h
  · rw [heq]
    exact h.withClass hnew

/-- The first class of a name stays. -/
theorem Consistent.declared_addClass (h : b.Consistent) (name : String) :
    (b.addClass c).1.declared name =
      (b.declared name).or (if name = c.name then some c else none) := by
  rcases addClass_cases b c with ⟨id, events, hid, heq⟩ | ⟨hnew, heq⟩
  · rw [heq]
    show b.declared name = _
    by_cases hname : name = c.name
    · obtain ⟨c', -, -, hdecl⟩ := h.declared_of_index hid
      rw [hname, hdecl, Option.some_or]
    · rw [if_neg hname, Option.or_none]
  · rw [heq, h.declared_withClass]
    by_cases hname : name = c.name
    · rw [if_pos hname, if_pos hname, hname, declared, hnew, Option.bind_none, Option.none_or]
    · rw [if_neg hname, if_neg hname, Option.or_none]

/-- The number that is given out is that of the class of this name. -/
theorem Consistent.getElem?_addClass (h : b.Consistent) :
    (b.addClass c).1.classes[(b.addClass c).2.1]? = (b.addClass c).1.declared c.name := by
  rcases addClass_cases b c with ⟨id, events, hid, heq⟩ | ⟨hnew, heq⟩
  · obtain ⟨c', hc', -, hdecl⟩ := h.declared_of_index hid
    rw [heq, hdecl]
    exact hc'
  · rw [heq, h.declared_withClass, if_pos rfl]
    exact Array.getElem?_push_size

/-- Numbers that were given out before are still those of the same classes. -/
theorem getElem?_classes_addClass {id : ClassId} (hid : id < b.classes.size) :
    (b.addClass c).1.classes[id]? = b.classes[id]? := by
  rcases addClass_cases b c with ⟨id', events, -, heq⟩ | ⟨-, heq⟩
  · rw [heq]
  · rw [heq]
    show (b.classes.push c)[id]? = _
    rw [Array.getElem?_push, if_neg (Nat.ne_of_lt hid)]

/-- Adding a class leaves all but the classes as they are. -/
theorem addClass_frame :
    (b.addClass c).1.methods = b.methods ∧ (b.addClass c).1.methodIndex = b.methodIndex ∧
    (b.addClass c).1.calls = b.calls ∧ (b.addClass c).1.synthetic = b.synthetic := by
  rcases addClass_cases b c with ⟨id, events, -, heq⟩ | ⟨-, heq⟩
  · rw [heq]
    exact ⟨rfl, rfl, rfl, rfl⟩
  · rw [heq]
    exact ⟨rfl, rfl, rfl, rfl⟩

end AddClass

end Builder

/-! ## Outlines -/

/-- A method as it is known without numbers: by its signature, its class and its body. -/
structure Outline where
  signature : String
  owner : Option ClassDecl
  body : List Statement

/-- The outline of a method whose class is looked up in the given table. -/
def Method.outline (classes : Array ClassDecl) (m : Method) : Outline :=
  ⟨m.signature, classes[m.owner]?, m.body⟩

namespace Builder

variable {b : Builder}

/-- The outlines of the methods in the order of their numbers. -/
def outlines (b : Builder) : List Outline :=
  b.methods.toList.map (Method.outline b.classes)

theorem Consistent.outlines_addClass (h : b.Consistent) (c : ClassDecl) :
    (b.addClass c).1.outlines = b.outlines := by
  rw [outlines, (addClass_frame c).1]
  refine List.map_congr_left fun m hm => ?_
  -- the class of a method is in the old part of the table, which does not change
  obtain ⟨id, hid⟩ := List.mem_iff_getElem?.1 hm
  rw [Array.getElem?_toList] at hid
  rw [Method.outline, getElem?_classes_addClass c (h.owners id m hid), Method.outline]

/-! ## Adding a method -/

section AddMethod

variable (signature className : String) (body : List Statement)

variable {signature} in
/-- A method with a new signature is accepted. -/
theorem addMethod_of_new (hnew : b.methodIndex[signature]? = none) :
    b.addMethod signature className body =
      (b.withMethodIn signature className body, .ok b.methods.size) := by
  rw [addMethod, if_neg, classNamed_eq]
  · show (b.withMethodIn signature className body,
      Except.ok (b.addClass (.ofName className)).1.methods.size) = _
    rw [(addClass_frame (.ofName className)).1]
  · rw [Std.HashMap.contains_eq_isSome_getElem?, hnew, Option.isSome_none]
    decide

/-- A method is refused if its signature is known, which changes nothing, and else it is put at the
end. -/
theorem addMethod_cases (b : Builder) :
    (∃ id, b.methodIndex[signature]? = some id ∧
      b.addMethod signature className body = (b, .error ⟨signature⟩)) ∨
    (b.methodIndex[signature]? = none ∧ b.addMethod signature className body =
      (b.withMethodIn signature className body, .ok b.methods.size)) := by
  cases hid : b.methodIndex[signature]? with
  | none => exact .inr ⟨rfl, addMethod_of_new className body hid⟩
  | some id =>
    refine .inl ⟨id, rfl, ?_⟩
    rw [addMethod, if_pos]
    rw [Std.HashMap.contains_eq_isSome_getElem?, hid, Option.isSome_some]

/-- A method brings in its class only if the name is not known. -/
theorem Consistent.declared_withMethodIn (h : b.Consistent) (name : String) :
    (b.withMethodIn signature className body).declared name =
      (b.declared name).or (if name = className then some (.ofName className) else none) :=
  h.declared_addClass (.ofName className) name

/-- The class of the method is then the known one, or else the one that the name says. -/
theorem Consistent.getElem?_owner (h : b.Consistent) :
    (b.addClass (.ofName className)).1.classes[(b.addClass (.ofName className)).2.1]? =
      some ((b.declared className).getD (.ofName className)) := by
  rw [h.getElem?_addClass, h.declared_addClass]
  show (b.declared className).or (if className = className then _ else none) = _
  rw [if_pos rfl]
  cases b.declared className with
  | none => rfl
  | some c => rfl

variable {signature} in
theorem Consistent.withMethodIn (h : b.Consistent) (hnew : b.methodIndex[signature]? = none) :
    (b.withMethodIn signature className body).Consistent := by
  refine (h.addClass (.ofName className)).withMethod ?_ ?_
  · rw [(addClass_frame (.ofName className)).2.1]
    exact hnew
  · exact (Array.getElem?_eq_some_iff.1 (h.getElem?_owner className)).1

/-- A method appends its outline. -/
theorem Consistent.outlines_withMethodIn (h : b.Consistent) :
    (b.withMethodIn signature className body).outlines = b.outlines ++
      [⟨signature, some ((b.declared className).getD (.ofName className)), body⟩] := by
  rw [← h.outlines_addClass (.ofName className), ← h.getElem?_owner className]
  show ((b.addClass (.ofName className)).1.methods.push _).toList.map _ = _
  rw [Array.toList_push, List.map_append, List.map_singleton]
  rfl

/-- A method enters its signature and leaves calls and patterns as they are. -/
theorem withMethodIn_frame :
    (b.withMethodIn signature className body).methodIndex =
      b.methodIndex.insert signature b.methods.size ∧
    (b.withMethodIn signature className body).calls = b.calls ∧
    (b.withMethodIn signature className body).synthetic = b.synthetic := by
  obtain ⟨hmethods, hindex, hcalls, hsynthetic⟩ := addClass_frame (b := b) (.ofName className)
  refine ⟨?_, hcalls, hsynthetic⟩
  show (b.addClass (.ofName className)).1.methodIndex.insert _ _ = _
  rw [hindex, hmethods]

end AddMethod

/-! ## Adding calls -/

/-- The call that two signatures stand for; none if one of them is not known. -/
def callBetween? (b : Builder) (caller callee : String) : Option (MethodId × MethodId) :=
  (b.methodId caller).bind fun m => (b.methodId callee).map fun n => (m, n)

theorem callBetween?_eq_some {caller callee : String} {x y : MethodId} :
    b.callBetween? caller callee = some (x, y) ↔
      b.methodId caller = some x ∧ b.methodId callee = some y := by
  rw [callBetween?, Option.bind_eq_some_iff]
  constructor
  · rintro ⟨x', hx', hmap⟩
    obtain ⟨y', hy', heq⟩ := Option.map_eq_some_iff.1 hmap
    obtain ⟨rfl, rfl⟩ := Prod.mk.inj heq
    exact ⟨hx', hy'⟩
  · rintro ⟨hx, hy⟩
    exact ⟨x, hx, by rw [hy, Option.map_some]⟩

/-- A call is recorded if both signatures are known, and else it is skipped, which changes
nothing. -/
theorem addCallBetween_cases (b : Builder) (caller callee : String) :
    (∃ x y, b.callBetween? caller callee = some (x, y) ∧
      b.addCallBetween caller callee = (b.addCall x y, true, [])) ∨
    (b.callBetween? caller callee = none ∧
      b.addCallBetween caller callee = (b, false, [.callSkipped caller callee])) := by
  unfold addCallBetween callBetween?
  cases b.methodId caller with
  | none => exact .inr ⟨rfl, rfl⟩
  | some x =>
    cases b.methodId callee with
    | none => exact .inr ⟨rfl, rfl⟩
    | some y => exact .inl ⟨x, y, rfl, rfl⟩

/-- A call between known signatures is recorded, and any other is skipped. -/
theorem addCallBetween_eq (b : Builder) (caller callee : String) :
    (b.addCallBetween caller callee).1 =
      { b with calls := b.calls ++ (b.callBetween? caller callee).toList } := by
  rcases addCallBetween_cases b caller callee with ⟨x, y, hcall, hadd⟩ | ⟨hcall, hadd⟩
  · rw [hadd, hcall, Option.toList_some]
    rfl
  · rw [hadd, hcall, Option.toList_none, Array.appendList_nil]

/-! ## Finishing -/

/-- A call is kept exactly if both numbers are known and the class of the caller fits no
pattern. -/
theorem Consistent.verdict_eq_kept (h : b.Consistent) {x y : MethodId} :
    b.verdict (x, y) = .kept ↔ y < b.methods.size ∧ ∃ m c, b.methods[x]? = some m ∧
      b.classes[m.owner]? = some c ∧ Glob.fitsAny b.synthetic c.name = false := by
  unfold verdict
  cases hm : b.methods[x]? with
  | none => simp
  | some m =>
    -- a method of a consistent builder has a class, so no call is kept for want of one
    obtain ⟨c, hc⟩ : ∃ c, b.classes[m.owner]? = some c :=
      ⟨_, Array.getElem?_eq_getElem (h.owners x m hm)⟩
    dsimp only
    by_cases hy : b.methods.size ≤ y
    · rw [if_pos hy]
      constructor
      · intro hverdict
        exact absurd hverdict (by decide)
      · rintro ⟨hlt, -⟩
        exact absurd hlt (Nat.not_lt_of_le hy)
    · rw [if_neg hy, hc]
      dsimp only
      split
      next hfits =>
        constructor
        · intro hverdict
          exact absurd hverdict (by simp)
        · rintro ⟨-, m', c', hm', hc', hnone⟩
          rw [← Option.some.inj hm', hc] at hc'
          rw [← Option.some.inj hc', hfits] at hnone
          exact absurd hnone (by decide)
      next hfits =>
        refine ⟨fun _ => ⟨Nat.lt_of_not_le hy, m, c, rfl, hc, ?_⟩, fun _ => rfl⟩
        exact Bool.eq_false_iff.2 hfits

end Builder

namespace CallGraph

/-- The callers in a graph after more calls were recorded. -/
theorem mem_callers_foldl {calls : List (MethodId × MethodId)} {g : CallGraph} {x y : MethodId} :
    x ∈ (calls.foldl addCall g).callers y ↔
      (x, y) ∈ calls ∧ y < g.incoming.size ∨ x ∈ g.callers y := by
  induction calls generalizing g with
  | nil => simp
  | cons call calls ih =>
    rw [List.foldl_cons, ih, mem_callers_addCall, size_addCall, List.mem_cons, or_and_right,
      or_assoc, or_left_comm]

/-- The callers of a method are those of the recorded calls to it. -/
theorem mem_callers_ofCalls {size : Nat} {calls : List (MethodId × MethodId)} {x y : MethodId} :
    x ∈ (ofCalls size calls).callers y ↔ (x, y) ∈ calls ∧ y < size := by
  rw [ofCalls, mem_callers_foldl, callers_empty, empty, Array.size_replicate]
  exact or_iff_left List.not_mem_nil

end CallGraph

/-- The callers in a finished program: the callers of recorded calls between known methods, except
where their class fits a pattern. -/
theorem Builder.Consistent.mem_callers_build {b : Builder} (h : b.Consistent) {x y : MethodId} :
    x ∈ b.build.1.calls.callers y ↔ (x, y) ∈ b.calls ∧ y < b.methods.size ∧
      ∃ m c, b.methods[x]? = some m ∧ b.classes[m.owner]? = some c ∧
        Glob.fitsAny b.synthetic c.name = false := by
  show x ∈ (CallGraph.ofCalls b.methods.size b.keptCalls).callers y ↔ _
  rw [CallGraph.mem_callers_ofCalls, Builder.keptCalls, List.mem_filter, decide_eq_true_eq,
    h.verdict_eq_kept, Array.mem_toList_iff]
  constructor
  · rintro ⟨⟨hcall, -, hkept⟩, hy⟩
    exact ⟨hcall, hy, hkept⟩
  · rintro ⟨hcall, hy, hkept⟩
    exact ⟨⟨hcall, hy, hkept⟩, hy⟩

end KeywordAudit
