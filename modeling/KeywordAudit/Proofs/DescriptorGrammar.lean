import KeywordAudit.Descriptor

/-!
# The grammar of descriptors

A descriptor is read by cutting it at one sign after the other, some of them at their first and
one at its last occurrence, with blanks trimmed in between.  Here the texts that are read are told
by what they are put together from: six parts with the signs between them.  A text has at most one
such decomposition, so a descriptor can be read off it in one way only.
-/

namespace KeywordAudit

open Text

/-! ## Parts around a sign -/

namespace Text

/-- A text determines the parts around its first `c`. -/
theorem eq_of_append_first {c : Char} {xs xs' ys ys' : List Char} (hxs : c ∉ xs) (hxs' : c ∉ xs')
    (h : xs ++ c :: ys = xs' ++ c :: ys') : xs = xs' ∧ ys = ys' := by
  have hcut : some (xs, ys) = some (xs', ys') := by
    rw [← cutFirst_append hxs ys, h, cutFirst_append hxs' ys']
  exact Prod.mk.inj (Option.some.inj hcut)

/-- A text determines the parts around its last `c`. -/
theorem eq_of_append_last {c : Char} {xs xs' ys ys' : List Char} (hys : c ∉ ys) (hys' : c ∉ ys')
    (h : xs ++ c :: ys = xs' ++ c :: ys') : xs = xs' ∧ ys = ys' := by
  have hcut : some (xs, ys) = some (xs', ys') := by
    rw [← cutLast_append xs hys, h, cutLast_append xs' hys']
  exact Prod.mk.inj (Option.some.inj hcut)

/-- A text is blank when none of its characters is left. -/
theorem trim_eq_empty_iff {s : String} : trim s = "" ↔ trimChars s.toList = [] := by
  rw [← String.toList_inj, toList_trim, String.toList_empty]

/-- Characters are those of a text. -/
theorem exists_toList (cs : List Char) : ∃ s : String, s.toList = cs :=
  ⟨String.ofList cs, String.toList_ofList⟩

end Text

namespace Descriptor

/-! ## The steps of the reader -/

/-- The text between the angle brackets is all that stands between them. -/
theorem inner?_eq_some_iff {cs inside : List Char} :
    inner? cs = some inside ↔ trimChars cs = '<' :: (inside ++ ['>']) := by
  rw [inner?]
  split
  next rest hrest =>
    rw [hrest, List.cons.injEq]
    split
    next front hfront =>
      have hback : rest = front.reverse ++ ['>'] := by
        rw [← List.reverse_reverse rest, hfront, List.reverse_cons]
      rw [hback, Option.some.injEq, List.append_cancel_right_eq]
      exact (and_iff_right rfl).symm
    next hnone =>
      constructor
      · intro h
        cases h
      · rintro ⟨-, rfl⟩
        exact absurd (List.reverse_append ..) (hnone inside.reverse)
  next hnone =>
    constructor
    · intro h
      cases h
    · intro h
      exact absurd h (hnone _)

/-- The part after the class is cut at its first blank, then at the first opening bracket and at
the last closing one. -/
theorem parseCall?_eq_some_iff {cs : List Char} {call : String × String × List String} :
    parseCall? cs = some call ↔
      ∃ result called arguments tail : List Char,
        trimChars cs = result ++ ' ' :: (called ++ '(' :: (arguments ++ ')' :: tail)) ∧
        ' ' ∉ result ∧ '(' ∉ called ∧ trimChars called ≠ [] ∧ ')' ∉ tail ∧
        call = (String.ofList (trimChars result), String.ofList (trimChars called),
          parameterTypes arguments) := by
  simp only [parseCall?, Option.bind_eq_bind, Option.bind_eq_some_iff, Prod.exists,
    cutFirst_eq_some_iff, cutLast_eq_some_iff]
  constructor
  · rintro ⟨result, rest, ⟨hresult, hspace⟩, called, behind, ⟨rfl, hopen⟩, arguments, tail,
      ⟨rfl, hclose⟩, hcall⟩
    split at hcall
    · cases hcall
    next hcalled =>
      exact ⟨result, called, arguments, tail, hresult, hspace, hopen,
        fun hnil => hcalled (List.isEmpty_iff.2 hnil), hclose, (Option.some.inj hcall).symm⟩
  · rintro ⟨result, called, arguments, tail, hresult, hspace, hopen, hcalled, hclose, rfl⟩
    refine ⟨result, _, ⟨hresult, hspace⟩, called, _, ⟨rfl, hopen⟩, arguments, tail,
      ⟨rfl, hclose⟩, ?_⟩
    rw [if_neg fun hempty => hcalled (List.isEmpty_iff.1 hempty)]

/-- The parameter types are the pieces between the commas that are not blank, trimmed. -/
theorem parameterTypes_eq (arguments : String) :
    parameterTypes arguments.toList =
      (((pieces ',' arguments.toList).map String.ofList).map trim).filter (· ≠ "") := by
  rw [parameterTypes]
  induction pieces ',' arguments.toList with
  | nil => rfl
  | cons piece more ih =>
    have htrim : trim (String.ofList piece) = String.ofList (trimChars piece) := by
      rw [trim, String.toList_ofList]
    rw [List.map_cons, List.map_cons, List.map_cons, htrim, List.filterMap_cons, List.filter_cons,
      ih]
    by_cases hblank : trimChars piece = []
    · rw [hblank]
      rfl
    · have hne : String.ofList (trimChars piece) ≠ "" := by
        intro hempty
        exact hblank (by simpa using congrArg String.toList hempty)
      simp [hblank, hne]

/-! ## Texts and their parts -/

/-- The parts of a descriptor: it is `<owner:rest>`, and the rest is `result called(arguments)tail`
with blanks around it. -/
@[ext] structure Parts where
  owner : String
  rest : String
  result : String
  called : String
  arguments : String
  tail : String

namespace Parts

/-- Parts spell a text when they and the signs between them, put together, are the text without
the blanks around it.  The signs stand where they are looked for, and the class and the name are not
blank. -/
structure Spell (q : Parts) (s : String) : Prop where
  outer : trim s = "<" ++ q.owner ++ ":" ++ q.rest ++ ">"
  colon : ':' ∉ q.owner.toList
  owner : trim q.owner ≠ ""
  inner : trim q.rest = q.result ++ " " ++ q.called ++ "(" ++ q.arguments ++ ")" ++ q.tail
  space : ' ' ∉ q.result.toList
  opening : '(' ∉ q.called.toList
  called : trim q.called ≠ ""
  closing : ')' ∉ q.tail.toList

/-- Parts mean a descriptor when it consists of the trimmed class, return type and name and of the
comma separated arguments, trimmed, without the blank ones. -/
structure Mean (q : Parts) (d : Descriptor) : Prop where
  className : d.className = trim q.owner
  returnType : d.returnType = trim q.result
  name : d.name = trim q.called
  parameters : ∃ pieces : List String, pieces ≠ [] ∧ (∀ piece ∈ pieces, ',' ∉ piece.toList) ∧
    q.arguments = String.intercalate "," pieces ∧
    d.parameters = (pieces.map trim).filter (· ≠ "")

variable {q : Parts} {s : String}

/-- The outer signs, as characters. -/
theorem outer_iff : trim s = "<" ++ q.owner ++ ":" ++ q.rest ++ ">" ↔
    trimChars s.toList = '<' :: ((q.owner.toList ++ ':' :: q.rest.toList) ++ ['>']) := by
  rw [← String.toList_inj, toList_trim]
  simp

/-- The inner signs, as characters. -/
theorem inner_iff :
    trim q.rest = q.result ++ " " ++ q.called ++ "(" ++ q.arguments ++ ")" ++ q.tail ↔
      trimChars q.rest.toList = q.result.toList ++ ' ' ::
        (q.called.toList ++ '(' :: (q.arguments.toList ++ ')' :: q.tail.toList)) := by
  rw [← String.toList_inj, toList_trim]
  simp

/-- The arguments have one list of pieces, so the parameters of a descriptor are those that the
reader finds. -/
theorem parameters_iff {d : Descriptor} :
    (∃ pieces : List String, pieces ≠ [] ∧ (∀ piece ∈ pieces, ',' ∉ piece.toList) ∧
      q.arguments = String.intercalate "," pieces ∧
      d.parameters = (pieces.map trim).filter (· ≠ "")) ↔
    d.parameters = parameterTypes q.arguments.toList := by
  have hcomma : ",".toList = [','] := rfl
  rw [parameterTypes_eq]
  constructor
  · rintro ⟨parts, hne, hparts, harguments, hparameters⟩
    rw [hparameters, harguments, pieces_intercalate hcomma hne hparts]
  · intro hparameters
    refine ⟨(pieces ',' q.arguments.toList).map String.ofList, ?_, ?_, ?_, hparameters⟩
    · rw [ne_eq, List.map_eq_nil_iff]
      exact pieces_ne_nil ',' _
    · intro part hpart
      obtain ⟨piece, hpiece, rfl⟩ := List.mem_map.1 hpart
      rw [String.toList_ofList]
      exact not_mem_of_mem_pieces hpiece
    · exact (intercalate_pieces hcomma q.arguments).symm

/-- All parts mean a descriptor. -/
theorem exists_mean (q : Parts) : ∃ d, q.Mean d :=
  ⟨⟨trim q.owner, trim q.result, trim q.called, parameterTypes q.arguments.toList⟩, rfl, rfl, rfl,
    parameters_iff.2 rfl⟩

/-- A text is spelled in one way at most. -/
theorem Spell.unique {q' : Parts} (h : q.Spell s) (h' : q'.Spell s) : q = q' := by
  have houter := outer_iff.1 h.outer
  rw [outer_iff.1 h'.outer, List.cons.injEq, List.append_cancel_right_eq] at houter
  obtain ⟨howner, hrest⟩ := eq_of_append_first h'.colon h.colon houter.2
  have hinner := inner_iff.1 h.inner
  rw [← hrest, inner_iff.1 h'.inner] at hinner
  obtain ⟨hresult, hinner⟩ := eq_of_append_first h'.space h.space hinner
  obtain ⟨hcalled, hinner⟩ := eq_of_append_first h'.opening h.opening hinner
  obtain ⟨harguments, htail⟩ := eq_of_append_last h'.closing h.closing hinner
  exact Parts.ext (String.toList_inj.1 howner.symm) (String.toList_inj.1 hrest.symm)
    (String.toList_inj.1 hresult.symm) (String.toList_inj.1 hcalled.symm)
    (String.toList_inj.1 harguments.symm) (String.toList_inj.1 htail.symm)

end Parts

/-- A text is read as a descriptor when it is spelled by parts that mean the descriptor. -/
theorem parse?_eq_some_iff {s : String} {d : Descriptor} :
    parse? s = some d ↔ ∃ q : Parts, q.Spell s ∧ q.Mean d := by
  simp only [parse?, Option.bind_eq_bind, Option.bind_eq_some_iff, Prod.exists,
    inner?_eq_some_iff, cutFirst_eq_some_iff, parseCall?_eq_some_iff]
  constructor
  · rintro ⟨inside, houter, owner, rest, ⟨rfl, hcolon⟩, returnType, name, parameters,
      ⟨result, called, arguments, tail, hinner, hspace, hopen, hcalled, hclose, hcall⟩, hd⟩
    split at hd
    · cases hd
    next howner =>
      -- the parts that were cut out, as texts
      obtain ⟨owner, rfl⟩ := exists_toList owner
      obtain ⟨rest, rfl⟩ := exists_toList rest
      obtain ⟨result, rfl⟩ := exists_toList result
      obtain ⟨called, rfl⟩ := exists_toList called
      obtain ⟨arguments, rfl⟩ := exists_toList arguments
      obtain ⟨tail, rfl⟩ := exists_toList tail
      let q : Parts := ⟨owner, rest, result, called, arguments, tail⟩
      have hspell : q.Spell s := by
        refine ⟨Parts.outer_iff.2 houter, hcolon, ?_, Parts.inner_iff.2 hinner, hspace, hopen, ?_,
          hclose⟩
        · intro hblank
          exact howner (List.isEmpty_iff.2 (trim_eq_empty_iff.1 hblank))
        · intro hblank
          exact hcalled (trim_eq_empty_iff.1 hblank)
      obtain ⟨rfl, rfl, rfl⟩ : returnType = _ ∧ name = _ ∧ parameters = _ := by
        simpa only [Prod.mk.injEq] using hcall
      obtain rfl := Option.some.inj hd
      exact ⟨q, hspell, rfl, rfl, rfl, Parts.parameters_iff.2 rfl⟩
  · rintro ⟨q, hspell, hmean⟩
    have howner : ¬(trimChars q.owner.toList).isEmpty = true := by
      intro hempty
      exact hspell.owner (trim_eq_empty_iff.2 (List.isEmpty_iff.1 hempty))
    have hcalled : trimChars q.called.toList ≠ [] := by
      intro hnil
      exact hspell.called (trim_eq_empty_iff.2 hnil)
    refine ⟨_, Parts.outer_iff.1 hspell.outer, q.owner.toList, q.rest.toList, ⟨rfl, hspell.colon⟩,
      trim q.result, trim q.called, parameterTypes q.arguments.toList,
      ⟨_, _, _, _, Parts.inner_iff.1 hspell.inner, hspell.space, hspell.opening, hcalled,
        hspell.closing, rfl⟩, ?_⟩
    rw [if_neg howner, ← Parts.parameters_iff.1 hmean.parameters, ← hmean.name,
      ← hmean.returnType]
    exact congrArg (fun name => some (Descriptor.mk name d.returnType d.name d.parameters))
      hmean.className.symm

/-- **The grammar of descriptors.**  A text is read as a descriptor exactly if it is spelled by
parts that mean the descriptor, and it is refused exactly if no parts spell it.  There is no choice:
parts that spell a text are the only ones, and the text is read as what they mean. -/
theorem descriptor_grammar (s : String) :
    (∀ d, parse? s = some d ↔ ∃ q : Parts, q.Spell s ∧ q.Mean d) ∧
    (parse? s = none ↔ ¬∃ q : Parts, q.Spell s) ∧
    ∀ q : Parts, q.Spell s →
      (∀ d, parse? s = some d ↔ q.Mean d) ∧ ∀ q' : Parts, q'.Spell s → q' = q := by
  refine ⟨fun d => parse?_eq_some_iff, ?_, fun q hspell => ⟨fun d => ?_, fun q' hspell' => ?_⟩⟩
  · constructor
    · rintro hnone ⟨q, hspell⟩
      obtain ⟨d, hmean⟩ := q.exists_mean
      have hsome : parse? s = some d := parse?_eq_some_iff.2 ⟨q, hspell, hmean⟩
      rw [hnone] at hsome
      cases hsome
    · intro hno
      rw [Option.eq_none_iff_forall_ne_some]
      intro d hd
      obtain ⟨q, hspell, -⟩ := parse?_eq_some_iff.1 hd
      exact hno ⟨q, hspell⟩
  · rw [parse?_eq_some_iff]
    constructor
    · rintro ⟨q', hspell', hmean⟩
      rwa [← hspell'.unique hspell]
    · intro hmean
      exact ⟨q, hspell, hmean⟩
  · exact hspell'.unique hspell

/-- The parts of a constructor whose second argument has brackets of its own. -/
def constructorParts : Parts where
  owner := "a.B "
  rest := " void <init>( int , ,f(x)) throws E"
  result := "void"
  called := "<init>"
  arguments := " int , ,f(x)"
  tail := " throws E"

/-- The name keeps its angle brackets and the last argument its round ones; the blank argument and
what follows the last bracket are passed over. -/
theorem descriptor_grammar_constructor :
    constructorParts.Spell " <a.B : void <init>( int , ,f(x)) throws E>\n" ∧
    parse? " <a.B : void <init>( int , ,f(x)) throws E>\n" =
      some ⟨"a.B", "void", "<init>", ["int", "f(x)"]⟩ ∧
    ∀ q : Parts, q.Spell " <a.B : void <init>( int , ,f(x)) throws E>\n" →
      q = constructorParts := by
  have hspell : constructorParts.Spell " <a.B : void <init>( int , ,f(x)) throws E>\n" := by
    constructor <;> decide
  have hmean : constructorParts.Mean ⟨"a.B", "void", "<init>", ["int", "f(x)"]⟩ :=
    ⟨by decide, by decide, by decide, [" int ", " ", "f(x)"], by decide, by decide, by decide,
      by decide⟩
  obtain ⟨-, -, hparts⟩ := descriptor_grammar " <a.B : void <init>( int , ,f(x)) throws E>\n"
  obtain ⟨hread, hunique⟩ := hparts constructorParts hspell
  exact ⟨hspell, (hread _).2 hmean, hunique⟩

end Descriptor
end KeywordAudit
